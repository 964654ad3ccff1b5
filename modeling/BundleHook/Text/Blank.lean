/-!
# Blank characters

Text is a list of code points, so an offset counts code points. This module holds the blank
characters and the operations that skip, trim and recognise them.
-/

namespace BundleHook

/-- A text, one code point after the other. -/
abbrev Text := List Char

namespace Text

/-- What holds of all characters of a text is decided along the text. -/
instance {p : Char → Prop} [DecidablePred p] (t : List Char) : Decidable (∀ c ∈ t, p c) :=
  List.decidableBAll p t

/-- Is `n` in one of the closed intervals? -/
def within (intervals : List (Nat × Nat)) (n : Nat) : Bool :=
  intervals.any fun (low, high) => low ≤ n && n ≤ high

/-- Code points of white space, as closed intervals: the ASCII blanks with the four information
separators, the next-line control, and the Unicode space, line and paragraph separators. -/
def blankIntervals : List (Nat × Nat) :=
  [(0x9, 0xD), (0x1C, 0x20), (0x85, 0x85), (0xA0, 0xA0), (0x1680, 0x1680), (0x2000, 0x200A),
   (0x2028, 0x2029), (0x202F, 0x202F), (0x205F, 0x205F), (0x3000, 0x3000)]

def isBlank (c : Char) : Bool := within blankIntervals c.toNat

/-- A space or a tab: the blanks that indent a line. -/
def isIndent (c : Char) : Bool := c == ' ' || c == '\t'

/-- Every white-space character of the ASCII class is blank. -/
theorem isBlank_of_isWhitespace (c : Char) (h : c.isWhitespace = true) : isBlank c = true := by
  simp only [Char.isWhitespace, Bool.or_eq_true, decide_eq_true_eq] at h
  rcases h with ((h | h) | h) | h <;> subst h <;> decide

theorem isBlank_of_isIndent (c : Char) (h : isIndent c = true) : isBlank c = true := by
  simp only [isIndent, Bool.or_eq_true, beq_iff_eq] at h
  rcases h with h | h <;> subst h <;> decide

/-- The text from its first character that is not blank. -/
def trimStart (t : Text) : Text := t.dropWhile isBlank

def trim (t : Text) : Text := (t.trimStart.reverse.dropWhile isBlank).reverse

def isBlankText (t : Text) : Bool := t.all isBlank

/-- Does `word` occur in the text, at any place? -/
def has (word : Text) : Text → Bool
  | [] => word.isEmpty
  | c :: rest => word.isPrefixOf (c :: rest) || has word rest

/-- Does the text begin with `word`? -/
def startsWith (t word : Text) : Bool := word.isPrefixOf t

/-- Does the text end with `word`? -/
def endsWith (t word : Text) : Bool := word.isSuffixOf t

/-- The part `[start, stop)` of a text; both ends may lie beyond it. -/
def slice (t : Text) (start stop : Nat) : Text := (t.take stop).drop start

/-- The text with every occurrence of `old` taken out, from left to right. -/
def without (old : Text) (t : Text) : Text := go 0 t
where
  /-- Passes over `skip` more characters of an occurrence, then looks for the next one. -/
  go : Nat → Text → Text
    | _, [] => []
    | skip + 1, _ :: rest => go skip rest
    | 0, c :: rest =>
      if !old.isEmpty && old.isPrefixOf (c :: rest) then go (old.length - 1) rest
      else c :: go 0 rest

/-- The parts of a text between the occurrences of one character. -/
def splitOn (mark : Char) : Text → List Text
  | [] => [[]]
  | c :: rest =>
    if c = mark then [] :: splitOn mark rest
    else match splitOn mark rest with
      | part :: parts => (c :: part) :: parts
      | [] => [[c]]

/-- The parts with `glue` between each two of them. -/
def join (glue : Text) : List Text → Text
  | [] => []
  | [part] => part
  | part :: parts => part ++ glue ++ join glue parts

theorem splitOn_ne_nil (mark : Char) (t : Text) : splitOn mark t ≠ [] := by
  cases t with
  | nil => simp [splitOn]
  | cons c rest =>
    simp only [splitOn]
    split
    · simp
    · split <;> simp

/-- Joining the parts with the mark gives the text back. -/
theorem join_splitOn (mark : Char) (t : Text) : join [mark] (splitOn mark t) = t := by
  induction t with
  | nil => rfl
  | cons c rest ih =>
    simp only [splitOn]
    split
    · next h =>
      subst h
      cases hs : splitOn c rest with
      | nil => exact absurd hs (splitOn_ne_nil c rest)
      | cons part parts => rw [hs] at ih; simp [join, ih]
    · cases hs : splitOn mark rest with
      | nil => exact absurd hs (splitOn_ne_nil mark rest)
      | cons part parts =>
        rw [hs] at ih
        cases parts <;> simp_all [join]

end Text

end BundleHook
