import BundleHook.Text.Blank

/-!
# Patterns of names

In the pattern of a name a star stands for any characters, a question mark for one, and a class in
brackets for one of its characters. A class that begins with an exclamation mark stands for one of
the others; a dash between two characters means those from the one to the other. A bracket that is
not closed is a character like any other.
-/

namespace BundleHook.Glob

/-- A part of a pattern. -/
inductive Piece where
  | star
  | anyChar
  | char (c : Char)
  /-- One of the characters in the ranges, or one of the others. -/
  | oneOf (negated : Bool) (ranges : List (Char × Char))
  deriving DecidableEq, Repr

/-- What a class consists of: its characters, and the dashes that make ranges. -/
inductive ClassMark where
  | char (c : Char)
  | dash
  deriving DecidableEq, Repr

/-- The body of a class and what comes behind its closing bracket. A bracket that comes first, or
behind the exclamation mark, does not close the class. -/
def classBody? (t : Text) : Option (Text × Text) :=
  let mark := if t.head? = some '!' then ['!'] else []
  let afterMark := t.drop mark.length
  let bracket := if afterMark.head? = some ']' then [']'] else []
  let inner := afterMark.drop bracket.length
  let body := inner.takeWhile (· ≠ ']')
  match inner.drop body.length with
  | _ :: rest => some (mark ++ bracket ++ body, rest)
  | [] => none

/-- The body cut at the dashes that make ranges. A dash among the first `least` characters makes
none, nor does one among the first two of a later piece; `limit` bounds the number of cuts. -/
def chunks : (limit least : Nat) → Text → List Text
  | 0, _, t => [t]
  | limit + 1, least, t =>
    let chunk := t.take least ++ (t.drop least).takeWhile (· ≠ '-')
    match t.drop chunk.length with
    | _ :: rest => chunk :: chunks limit 2 rest
    | [] => [chunk]

/-- A dash at the end of a body is a character of the last chunk. -/
def closeLast : List Text → List Text
  | [chunk, []] => [chunk ++ ['-']]
  | chunk :: others => chunk :: closeLast others
  | [] => []

/-- Drops the ranges that end before they begin. -/
def dropEmptyRanges : List Text → List Text
  | [] => []
  | chunk :: others =>
    match dropEmptyRanges others with
    | next :: more =>
      match chunk.getLast?, next.head? with
      | some first, some last =>
        if last < first then (chunk.dropLast ++ next.drop 1) :: more else chunk :: next :: more
      | _, _ => chunk :: next :: more
    | [] => [chunk]

def marksOf : List Text → List ClassMark
  | [] => []
  | [chunk] => chunk.map .char
  | chunk :: others => chunk.map .char ++ .dash :: marksOf others

/-- The ranges that the marks make; a dash in first place is a character. -/
def rangesOf : List ClassMark → List (Char × Char)
  | .char first :: .dash :: .char last :: others => (first, last) :: rangesOf others
  | .char c :: others => (c, c) :: rangesOf others
  | .dash :: others => ('-', '-') :: rangesOf others
  | [] => []

def classOf (body : Text) : Piece :=
  let least := if body.head? = some '!' then 2 else 1
  match marksOf (dropEmptyRanges (closeLast (chunks body.length least body))) with
  | .char '!' :: marks => .oneOf true (rangesOf marks)
  | marks => .oneOf false (rangesOf marks)

/-- The pieces of a pattern; `limit` bounds their number. -/
def piecesUpTo : (limit : Nat) → Text → List Piece
  | 0, _ => []
  | _, [] => []
  | limit + 1, '*' :: rest => .star :: piecesUpTo limit rest
  | limit + 1, '?' :: rest => .anyChar :: piecesUpTo limit rest
  | limit + 1, '[' :: rest =>
    match classBody? rest with
    | some (body, behind) => classOf body :: piecesUpTo limit behind
    | none => .char '[' :: piecesUpTo limit rest
  | limit + 1, c :: rest => .char c :: piecesUpTo limit rest

def pieces (t : Text) : List Piece := piecesUpTo t.length t

/-- Does a piece that is not a star stand for a character? -/
def Piece.covers : Piece → Char → Bool
  | star, _ => false
  | anyChar, _ => true
  | char own, c => own = c
  | oneOf negated ranges, c => ranges.any (fun (first, last) => first ≤ c && c ≤ last) != negated

/-- Do the pieces stand for a name? -/
def covers : List Piece → Text → Bool
  | [], name => name.isEmpty
  | .star :: others, name =>
    (List.range (name.length + 1)).any fun count => covers others (name.drop count)
  | piece :: others, name =>
    match name with
    | c :: rest => piece.covers c && covers others rest
    | [] => false

/-- Has the text characters that make it more than a name? -/
def isPattern (t : Text) : Bool := t.any fun c => c = '*' || c = '?' || c = '['

/-- A star alone stands for every name. -/
theorem covers_star (name : Text) : covers [.star] name = true := by
  simp only [covers, List.any_eq_true, List.mem_range]
  exact ⟨name.length, by omega, by simp⟩

/-- Characters stand for themselves only. -/
theorem covers_map_char (own name : Text) : covers (own.map .char) name = decide (own = name) := by
  induction own generalizing name with
  | nil => cases name <;> simp [covers]
  | cons c rest ih =>
    cases name with
    | nil => simp [covers]
    | cons d others => simp [covers, Piece.covers, ih, Bool.decide_and]

end BundleHook.Glob
