/-!
# Double-precision numbers

A finite number is a sign, a mantissa below `2 ^ 53` and a power of two, so that two numbers are
equal exactly when their words are. Every operation is exact arithmetic on natural numbers.
-/

namespace BundleHook

/-- A double-precision number. A finite one has a mantissa of 53 bits, or a smaller one with the
least exponent. -/
inductive Binary64 where
  | finite (negative : Bool) (mantissa : Nat) (exponent : Int)
  | infinite (negative : Bool)
  /-- No number; the payload tells one from another. -/
  | undefined (negative : Bool) (payload : Nat)
  deriving DecidableEq, Repr, Inhabited

namespace Binary64

def leastExponent : Int := -1074

def greatestExponent : Int := 971

/-- The mantissas lie below this number. -/
def mantissaBound : Nat := 1 <<< 53

/-- The quotient of two numbers rounded to the nearest number, a half to the even neighbour. -/
def roundHalfEven (numerator denominator : Nat) : Nat :=
  let whole := numerator / denominator
  let twice := 2 * (numerator % denominator)
  if twice > denominator || (twice == denominator && whole % 2 == 1) then whole + 1 else whole

/-- A quotient divided by a power of two, as a numerator and a denominator. -/
def scaled (numerator denominator : Nat) (exponent : Int) : Nat × Nat :=
  if exponent < 0 then (numerator <<< (-exponent).toNat, denominator)
  else (numerator, denominator <<< exponent.toNat)

/-- The double nearest to a quotient; of two the one with the even mantissa. -/
def nearest (negative : Bool) (numerator denominator : Nat) : Binary64 :=
  if numerator = 0 then finite negative 0 leastExponent
  else
    let guess : Int := (numerator.log2 : Int) - denominator.log2 - 53
    let (n, d) := scaled numerator denominator guess
    let fitted := if n / d < mantissaBound then guess else guess + 1
    let exponent := max fitted leastExponent
    let (n, d) := scaled numerator denominator exponent
    let mantissa := roundHalfEven n d
    let (mantissa, exponent) :=
      if mantissa = mantissaBound then (mantissa / 2, exponent + 1) else (mantissa, exponent)
    if greatestExponent < exponent then infinite negative else finite negative mantissa exponent

/-- The double nearest to `digits * 10 ^ power`. A power far outside the range gives an infinite
number or zero without being computed. -/
def ofDecimal (negative : Bool) (digits : Nat) (power : Int) : Binary64 :=
  if digits = 0 then finite negative 0 leastExponent
  else
    let width : Int := digits.log2 / 3 + 1
    if power + width < -400 then finite negative 0 leastExponent
    else if 400 < power then infinite negative
    else if power < 0 then nearest negative digits (Nat.pow 10 (-power).toNat)
    else nearest negative (digits * Nat.pow 10 power.toNat) 1

def ofWord (word : Nat) : Binary64 :=
  let negative := word >>> 63 % 2 == 1
  let power : Nat := word >>> 52 % 1 <<< 11
  let fraction := word % 1 <<< 52
  if power = 2047 then
    if fraction = 0 then infinite negative else undefined negative fraction
  else if power = 0 then finite negative fraction leastExponent
  else finite negative (1 <<< 52 + fraction) ((power : Int) - 1075)

def toWord (x : Binary64) : Nat :=
  let signed (negative : Bool) (rest : Nat) : Nat := if negative then 1 <<< 63 + rest else rest
  match x with
  | finite negative mantissa exponent =>
    if mantissa < 1 <<< 52 then signed negative mantissa
    else signed negative ((exponent + 1075).toNat <<< 52 + (mantissa - 1 <<< 52))
  | infinite negative => signed negative (2047 <<< 52)
  | undefined negative payload => signed negative (2047 <<< 52 + payload)

/-- The double with the value of a single-precision word of 32 bits. An undefined value becomes a
quiet one. -/
def ofShortWord (word : Nat) : Binary64 :=
  let negative := word >>> 31 % 2 == 1
  let power : Nat := word >>> 23 % 1 <<< 8
  let fraction := word % 1 <<< 23
  if power = 255 then
    if fraction = 0 then infinite negative
    else undefined negative (1 <<< 51 + (fraction % 1 <<< 22) <<< 29)
  else if power = 0 then nearest negative fraction (1 <<< 149)
  else
    let (n, d) := scaled (1 <<< 23 + fraction) 1 (150 - (power : Int))
    nearest negative n d

/-- The whole number a double is, if it is one. -/
def whole? : Binary64 → Option Int
  | finite negative mantissa exponent =>
    let (n, d) := scaled mantissa 1 (-exponent)
    if n % d = 0 then some (if negative then -(n / d : Nat) else (n / d : Nat)) else none
  | _ => none

end Binary64

end BundleHook
