import BundleHook.Text.Blank

/-!
# Base 64

Octets in characters of six bits each. Writing pads to a multiple of four characters; reading passes
over characters of no value, and is done when the padding is complete.
-/

namespace BundleHook.PropertyList.Base64

def symbol (n : Nat) : Char :=
  if n < 26 then Char.ofNat ('A'.toNat + n)
  else if n < 52 then Char.ofNat ('a'.toNat + (n - 26))
  else if n < 62 then Char.ofNat ('0'.toNat + (n - 52))
  else if n = 62 then '+' else '/'

def value? (c : Char) : Option Nat :=
  if 'A' ≤ c && c ≤ 'Z' then some (c.toNat - 'A'.toNat)
  else if 'a' ≤ c && c ≤ 'z' then some (c.toNat - 'a'.toNat + 26)
  else if '0' ≤ c && c ≤ '9' then some (c.toNat - '0'.toNat + 52)
  else if c = '+' then some 62
  else if c = '/' then some 63
  else none

/-- The octets in characters, without line ends. -/
def encode : List UInt8 → Text
  | [] => []
  | [a] =>
    let n := a.toNat * 16
    [symbol (n / 64), symbol (n % 64), '=', '=']
  | [a, b] =>
    let n := (a.toNat * 256 + b.toNat) * 4
    [symbol (n / 4096), symbol (n / 64 % 64), symbol (n % 64), '=']
  | a :: b :: c :: rest =>
    let n := (a.toNat * 256 + b.toNat) * 256 + c.toNat
    symbol (n / 262144) :: symbol (n / 4096 % 64) :: symbol (n / 64 % 64) :: symbol (n % 64) ::
      encode rest

/-- Why a text is no base 64. -/
inductive Flaw where
  /-- One character of value is left over; the count of all of them. -/
  | lonely (characters : Nat)
  | padding
  deriving DecidableEq, Repr

/-- The state of a reading: the characters of value in the open group, latest first, the padding
characters behind them, and the octets, latest first. -/
structure Reading where
  group : List Nat
  pads : Nat
  octets : List UInt8

def decodeFrom : Reading → Text → Except Flaw (List UInt8)
  | r, [] =>
    match r.group with
    | [] => .ok r.octets.reverse
    | [_] => .error (.lonely (r.octets.length / 3 * 4 + 1))
    | _ => .error .padding
  | r, c :: rest =>
    if c = '=' then
      if 2 ≤ r.group.length then
        if 4 ≤ r.group.length + (r.pads + 1) then .ok r.octets.reverse
        else decodeFrom { r with pads := r.pads + 1 } rest
      else decodeFrom r rest
    else
      match value? c with
      | none => decodeFrom r rest
      | some n =>
        match r.group with
        | [] => decodeFrom ⟨[n], 0, r.octets⟩ rest
        | [a] => decodeFrom ⟨[n, a], 0, UInt8.ofNat (a * 4 + n / 16) :: r.octets⟩ rest
        | [b, a] => decodeFrom ⟨[n, b, a], 0, UInt8.ofNat (b * 16 + n / 4) :: r.octets⟩ rest
        | b :: _ => decodeFrom ⟨[], 0, UInt8.ofNat (b * 64 + n) :: r.octets⟩ rest

def decode (t : Text) : Except Flaw (List UInt8) := decodeFrom ⟨[], 0, []⟩ t

end BundleHook.PropertyList.Base64
