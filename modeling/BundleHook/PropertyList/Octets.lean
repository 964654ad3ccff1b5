import BundleHook.Text.Blank

/-!
# Numbers and texts as octets

Numbers with their most significant octet first, and texts in units of two octets. Reading undoes
writing.
-/

namespace BundleHook.PropertyList

/-- Octets, one after the other. -/
abbrev Bytes := List UInt8

/-- The number that octets write, the most significant one first. -/
def numberOf (octets : Bytes) : Nat := octets.foldl (fun n octet => n * 256 + octet.toNat) 0

/-- The last `width` octets of a number, the most significant one first. -/
def octetsOf : (width : Nat) → Nat → Bytes
  | 0, _ => []
  | width + 1, n => octetsOf width (n / 256) ++ [UInt8.ofNat n]

theorem length_octetsOf (width n : Nat) : (octetsOf width n).length = width := by
  induction width generalizing n with
  | zero => rfl
  | succ width ih => simp [octetsOf, ih]

theorem numberOf_octetsOf (width n : Nat) (h : n < Nat.pow 256 width) :
    numberOf (octetsOf width n) = n := by
  induction width generalizing n with
  | zero => simp_all [octetsOf, numberOf]
  | succ width ih =>
    have h : n < Nat.pow 256 width * 256 := h
    have hn : n / 256 < Nat.pow 256 width := Nat.div_lt_of_lt_mul (by rwa [Nat.mul_comm])
    have hi := ih (n / 256) hn
    simp only [numberOf, octetsOf, List.foldl_append, List.foldl_cons, List.foldl_nil] at hi ⊢
    rw [hi, UInt8.toNat_ofNat']
    omega

/-- The signed number that octets write in two's complement. -/
def signedOf (octets : Bytes) : Int :=
  let n := numberOf octets
  let bound := Nat.pow 256 octets.length
  if 2 * n < bound then n else (n : Int) - bound

def paired (high low : Nat) : Char :=
  Char.ofNat (0x10000 + (high - 0xD800) * 0x400 + (low - 0xDC00))

def isHigh (unit : Nat) : Bool := 0xD800 ≤ unit && unit < 0xDC00

def isLow (unit : Nat) : Bool := 0xDC00 ≤ unit && unit < 0xE000

/-- The text of octets in units of two; `none` when a surrogate stands alone. -/
def wideText? : Bytes → Option Text
  | [] => some []
  | a :: b :: rest =>
    let unit := numberOf [a, b]
    if isHigh unit then
      match rest with
      | c :: d :: rest =>
        let low := numberOf [c, d]
        if isLow low then (wideText? rest).map (paired unit low :: ·) else none
      | _ => none
    else if isLow unit then none
    else (wideText? rest).map (Char.ofNat unit :: ·)
  | _ => none

def wideOctets (c : Char) : Bytes :=
  let n := c.toNat
  if n < 0x10000 then octetsOf 2 n
  else octetsOf 2 (0xD800 + (n - 0x10000) / 0x400) ++ octetsOf 2 (0xDC00 + (n - 0x10000) % 0x400)

/-- The text of octets below 128; `none` when there is another one. -/
def narrowText? (octets : Bytes) : Option Text :=
  if octets.all (· < 0x80) then some (octets.map fun b => Char.ofNat b.toNat) else none

end BundleHook.PropertyList
