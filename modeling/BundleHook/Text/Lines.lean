import BundleHook.Text.Blank

/-!
# Lines

Two notions of a line meet in native sources. For editing, a line ends at a line feed only. For
reading a body, every line boundary of the character set counts: line feed, carriage return (one
boundary with a line feed behind it), the vertical and form feeds, the three larger information
separators, the next-line control and the two Unicode separators.
-/

namespace BundleHook.Text

/-- The characters at which a line ends. -/
def isLineBreak (c : Char) : Bool :=
  within [(0xA, 0xD), (0x1C, 0x1E), (0x85, 0x85), (0x2028, 0x2029)] c.toNat

/-- The lines of a text without their ends. The text after the last end is a line only when it is
not empty. -/
def lines : Text → List Text
  | [] => []
  | '\r' :: '\n' :: rest => [] :: lines rest
  | c :: rest =>
    if isLineBreak c then [] :: lines rest
    else match lines rest with
      | line :: others => (c :: line) :: others
      | [] => [[c]]

/-- The text with line feeds as its line ends, in place of carriage returns and of carriage returns
with a line feed. -/
def unifyLines : Text → Text
  | [] => []
  | '\r' :: '\n' :: rest => '\n' :: unifyLines rest
  | c :: rest => (if c = '\r' then '\n' else c) :: unifyLines rest

/-- Where the line holding `index` begins: just behind the last line feed before it. -/
def startOfLine (t : Text) (index : Nat) : Nat :=
  let before := t.take index
  before.length - (before.reverse.takeWhile (· != '\n')).length

/-- The spaces and tabs that open the line holding `index`. -/
def indentOfLine (t : Text) (index : Nat) : Text :=
  (t.drop (startOfLine t index)).takeWhile isIndent

theorem startOfLine_le (t : Text) (index : Nat) : startOfLine t index ≤ index := by
  simp only [startOfLine, List.length_take]
  omega

theorem isIndent_of_mem_indentOfLine {t : Text} {index : Nat} {c : Char}
    (h : c ∈ indentOfLine t index) : isIndent c = true := by
  have := List.all_takeWhile (p := isIndent) (l := t.drop (startOfLine t index))
  exact List.all_eq_true.1 this c h

/-- Is there nothing but blanks between the start of the line and `index`? -/
def opensLine (t : Text) (index : Nat) : Bool :=
  isBlankText (slice t (startOfLine t index) index)

end BundleHook.Text
