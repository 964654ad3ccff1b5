import BundleHook.Text.Width

/-!
# Wrapping lines

A line that is too wide is broken between words. A word that is wider than a whole line begins on a
line of its own and is cut.
-/

namespace BundleHook.Wrapping

open Text

/-- The words of a text, each with the blanks behind it; blanks at the start go with the first one.
What is only blank has no words. -/
def wordsFrom : (limit : Nat) → Text → List Text
  | 0, _ => []
  | limit + 1, t =>
    let lead := t.takeWhile isBlank
    let core := (t.drop lead.length).takeWhile fun c => !isBlank c
    let tail := (t.drop (lead.length + core.length)).takeWhile isBlank
    if core.isEmpty then []
    else
      let word := lead ++ core ++ tail
      word :: wordsFrom limit (t.drop word.length)

def words (t : Text) : List Text := wordsFrom t.length t

def trimEnd (t : Text) : Text := (t.reverse.dropWhile isBlank).reverse

/-- A word cut into pieces that are no wider than `width`, where characters allow it. `line` is the
piece so far, and `used` its width. -/
def cutFrom (width : Nat) (line : Text) (used : Nat) : Text → List Text
  | [] => [line]
  | c :: rest =>
    if width < used + columnsOf c then line :: cutFrom width [c] (columnsOf c) rest
    else cutFrom width (line ++ [c]) (used + columnsOf c) rest

def cut (width : Nat) (word : Text) : List Text := cutFrom width [] 0 word

/-- The lines of some words; `line` is the line so far. -/
def fillFrom (width : Nat) (line : Text) : List Text → List Text
  | [] => [line]
  | word :: others =>
    let wide := columns (trimEnd word)
    if columns line + wide ≤ width then fillFrom width (line ++ word) others
    else if width < wide then
      let pieces := cut width word
      (if line.isEmpty then [] else [line]) ++ pieces.dropLast ++
        fillFrom width (pieces.getLast?.getD []) others
    else if line.isEmpty then fillFrom width word others
    else line :: fillFrom width word others

/-- The lines of a text, without blanks at their ends; blank lines are left out. -/
def lines (width : Nat) (t : Text) : List Text :=
  ((splitOn '\n' t).flatMap fun line => fillFrom width [] (words line)).map trim
    |>.filter fun line => !line.isEmpty

end BundleHook.Wrapping
