import BundleHook.Number.Binary64

/-!
# The shortest decimal of a double

A double stands for an interval of reals, those that round to it. Its decimal is the one of fewest
digits in that interval and, of those, the nearest to the double.
-/

namespace BundleHook.Binary64

/-- A decimal: digits times a power of ten. -/
structure Decimal where
  digits : Nat
  power : Int
  deriving DecidableEq, Repr

/-- An interval of reals around a value: all three over one denominator. -/
structure Range where
  low : Nat
  value : Nat
  high : Nat
  denominator : Nat
  /-- The ends belong to it. -/
  isClosed : Bool

/-- The reals that round to `mantissa * 2 ^ exponent`. Below a power of two the neighbour is nearer;
the ends round to an even mantissa. -/
def Range.of (mantissa : Nat) (exponent : Int) : Range :=
  let isNarrowBelow := mantissa = 1 <<< 52 && leastExponent < exponent
  let (unit, denominator) := if exponent < 2 then (1, 1 <<< (2 - exponent).toNat)
    else (1 <<< (exponent - 2).toNat, 1)
  let value := 4 * mantissa * unit
  ⟨value - (if isNarrowBelow then unit else 2 * unit), value, value + 2 * unit, denominator,
    mantissa % 2 = 0⟩

def digitCount (n : Nat) : Nat := (Nat.toDigits 10 n).length

/-- Does the interval hold `n * numerator / denominator`? -/
def Range.holds (r : Range) (n numerator denominator : Nat) : Bool :=
  let x := n * numerator * r.denominator
  let low := r.low * denominator
  let high := r.high * denominator
  (low < x && x < high) || (r.isClosed && (x == low || x == high))

/-- The point of the grid of `10 ^ power` that lies in the interval next to its value. -/
def Range.onGrid (r : Range) (power : Int) : Option Nat :=
  let (numerator, denominator) :=
    if power < 0 then (1, Nat.pow 10 (-power).toNat) else (Nat.pow 10 power.toNat, 1)
  let below := r.value * denominator / (r.denominator * numerator)
  let holds (n : Nat) : Bool := r.holds n numerator denominator
  match holds below, holds (below + 1) with
  | true, true =>
    let under := r.value * denominator - below * numerator * r.denominator
    let above := (below + 1) * numerator * r.denominator - r.value * denominator
    if under < above || (under == above && below % 2 == 0) then some below else some (below + 1)
  | true, false => some below
  | false, true => some (below + 1)
  | false, false => none

/-- The first hit on finer and finer grids. -/
def Range.firstHit (r : Range) : (grids : Nat) → (power : Int) → Decimal
  | 0, power => ⟨0, power⟩
  | grids + 1, power =>
    match r.onGrid power with
    | some n => ⟨n, power⟩
    | none => firstHit r grids (power - 1)

/-- The decimal without zeros at its end. -/
def Decimal.reduced (d : Decimal) : Decimal :=
  let rec go : (steps : Nat) → Decimal → Decimal
    | 0, d => d
    | steps + 1, d =>
      if d.digits % 10 = 0 && d.digits ≠ 0 then go steps ⟨d.digits / 10, d.power + 1⟩ else d
  go (digitCount d.digits) d

/-- The power of ten of the first digit of a quotient. -/
def leadingPower (numerator denominator : Nat) : Int :=
  if denominator ≤ numerator then (digitCount (numerator / denominator) : Int) - 1
  else
    let rec go : (steps : Nat) → (numerator : Nat) → Int
      | 0, _ => 0
      | steps + 1, numerator =>
        if denominator ≤ numerator then 0 else go steps (numerator * 10) - 1
    go 400 numerator

/-- The shortest decimal of `mantissa * 2 ^ exponent`. Seventeen digits always suffice. -/
def shortest (mantissa : Nat) (exponent : Int) : Decimal :=
  if mantissa = 0 then ⟨0, 0⟩
  else
    let r := Range.of mantissa exponent
    (r.firstHit 18 (leadingPower r.value r.denominator)).reduced

/-! ## Text -/

def twoDigits (n : Nat) : String := if n < 10 then "0" ++ toString n else toString n

/-- A decimal in positional notation when its point lies at most 16 digits behind its first digit
or at most 4 places before it, else with an exponent of at least two digits. -/
def Decimal.text (d : Decimal) : String :=
  let digits := Nat.toDigits 10 d.digits
  let point : Int := digits.length + d.power
  let zeros (n : Int) : List Char := List.replicate n.toNat '0'
  if d.digits = 0 then "0.0"
  else if -4 < point && point ≤ 16 then
    String.ofList <|
      if point ≤ 0 then '0' :: '.' :: (zeros (-point) ++ digits)
      else if digits.length ≤ point then digits ++ zeros d.power ++ ['.', '0']
      else digits.take point.toNat ++ '.' :: digits.drop point.toNat
  else
    let power := point - 1
    let mantissa :=
      match digits with
      | first :: second :: others => first :: '.' :: second :: others
      | digits => digits
    String.ofList mantissa ++ (if power < 0 then "e-" else "e+") ++ twoDigits power.natAbs

/-- The shortest text that reads back as the number. -/
def text : Binary64 → String
  | finite negative mantissa exponent =>
    (if negative then "-" else "") ++ (shortest mantissa exponent).text
  | infinite negative => if negative then "-inf" else "inf"
  | undefined _ _ => "nan"

end BundleHook.Binary64
