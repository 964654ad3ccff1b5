import BundleHook.Number.Binary64
import BundleHook.Text.Blank

/-!
# Numerals

Numbers as people write them: with blanks around them, with a sign, with the decimal digits of any
script, and with single underscores between digits.
-/

namespace BundleHook.Numeral

/-- The zeros of the scripts other than ASCII; the other digits of a script follow its zero. -/
def zeros : List Nat :=
  [0x660, 0x6F0, 0x7C0, 0x966, 0x9E6, 0xA66, 0xAE6, 0xB66, 0xBE6, 0xC66, 0xCE6, 0xD66, 0xDE6,
   0xE50, 0xED0, 0xF20, 0x1040, 0x1090, 0x17E0, 0x1810, 0x1946, 0x19D0, 0x1A80, 0x1A90, 0x1B50,
   0x1BB0, 0x1C40, 0x1C50, 0xA620, 0xA8D0, 0xA900, 0xA9D0, 0xA9F0, 0xAA50, 0xABF0, 0xFF10,
   0x104A0, 0x10D30, 0x11066, 0x110F0, 0x11136, 0x111D0, 0x112F0, 0x11450, 0x114D0, 0x11650,
   0x116C0, 0x11730, 0x118E0, 0x11950, 0x11C50, 0x11D50, 0x11DA0, 0x16A60, 0x16AC0, 0x16B50,
   0x1D7CE, 0x1D7D8, 0x1D7E2, 0x1D7EC, 0x1D7F6, 0x1E140, 0x1E2F0, 0x1E950, 0x1FBF0]

def decimalDigit? (c : Char) : Option Nat :=
  if c.isDigit then some (c.toNat - '0'.toNat)
  else (zeros.find? fun first => first ≤ c.toNat && c.toNat < first + 10).map (c.toNat - ·)

def hexadecimalDigit? (c : Char) : Option Nat :=
  if 'a' ≤ c && c ≤ 'f' then some (c.toNat - 'a'.toNat + 10)
  else if 'A' ≤ c && c ≤ 'F' then some (c.toNat - 'A'.toNat + 10)
  else decimalDigit? c

def number (base : Nat) (digits : List Nat) : Nat :=
  digits.foldl (fun n digit => base * n + digit) 0

/-- The digits of a text in which single underscores may stand between two digits. -/
def digits? (digit? : Char → Option Nat) : Text → Option (List Nat)
  | [] => none
  | [c] => (digit? c).map fun d => [d]
  | c :: '_' :: rest => do return (← digit? c) :: (← digits? digit? rest)
  | c :: rest => do return (← digit? c) :: (← digits? digit? rest)

/-- A sign at the head of a text: whether the number is negative, and the text behind it. -/
def splitSign : Text → Bool × Text
  | '-' :: rest => (true, rest)
  | '+' :: rest => (false, rest)
  | t => (false, t)

/-! ## Integers -/

def signed (negative : Bool) (n : Nat) : Int := if negative then -(n : Int) else n

/-- Why a text is no integer. -/
inductive IntegerFlaw where
  /-- It is not written as one. -/
  | malformed
  /-- It has more decimal digits than are read. -/
  | tooLong (digits : Nat)
  deriving DecidableEq, Repr

/-- The greatest count of decimal digits that is read. -/
def digitLimit : Nat := 4300

def decimal? (t : Text) : Except IntegerFlaw Int :=
  let (negative, rest) := splitSign t.trim
  let run := rest.takeWhile fun c => c == '_' || (decimalDigit? c).isSome
  match digits? decimalDigit? run with
  | none => .error .malformed
  | some digits =>
    if digitLimit < digits.length then .error (.tooLong digits.length)
    else if run.length < rest.length then .error .malformed
    else .ok (signed negative (number 10 digits))

/-- The integer a text writes in hexadecimal digits, behind a zero and an x. -/
def hexadecimal? (t : Text) : Option Int := do
  let (negative, rest) := splitSign t.trim
  let body :=
    match rest with
    | '0' :: x :: '_' :: body => if x = 'x' || x = 'X' then body else rest
    | '0' :: x :: body => if x = 'x' || x = 'X' then body else rest
    | _ => rest
  return signed negative (number 16 (← digits? hexadecimalDigit? body))

/-! ## Reals -/

def optionalDigits? (t : Text) : Option (List Nat) :=
  if t.isEmpty then some [] else digits? decimalDigit? t

/-- An exponent with its sign; a text without one has the exponent zero. -/
def exponent? : Text → Option Int
  | [] => some 0
  | _ :: rest => do
    let (negative, body) := splitSign rest
    return signed negative (number 10 (← digits? decimalDigit? body))

/-- The double nearest to a number with a point or an exponent. -/
def finite? (negative : Bool) (t : Text) : Option Binary64 := do
  let isMark (c : Char) : Bool := c == 'e' || c == 'E'
  let mantissa := t.takeWhile fun c => !isMark c
  let power ← exponent? (t.dropWhile fun c => !isMark c)
  let whole ← optionalDigits? (mantissa.takeWhile (· != '.'))
  let fraction ← optionalDigits? ((mantissa.dropWhile (· != '.')).drop 1)
  if whole.isEmpty && fraction.isEmpty then none
  else some (.ofDecimal negative (number 10 (whole ++ fraction)) (power - fraction.length))

/-- The payload of the undefined value that a word names. -/
def quietPayload : Nat := 1 <<< 51

/-- The double a text writes: a decimal, or a word for an infinite or undefined value. -/
def real? (t : Text) : Option Binary64 :=
  let (negative, rest) := splitSign t.trim
  let word := String.ofList (rest.map Char.toLower)
  if word = "inf" || word = "infinity" then some (.infinite negative)
  else if word = "nan" then some (.undefined negative quietPayload)
  else finite? negative rest

end BundleHook.Numeral
