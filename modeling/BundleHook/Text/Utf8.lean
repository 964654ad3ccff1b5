import BundleHook.Text.Quoted

/-!
# UTF-8

Octets that are no text are refused with the place and the kind of the first mistake. Of a sequence
that is broken off only the octets that may stand together belong to the mistake.
-/

namespace BundleHook.Utf8

/-- What is wrong with a sequence of octets. -/
inductive Mistake where
  | startOctet
  | continuation
  | endOfData
  deriving DecidableEq, Repr

/-- A mistake, the octets it begins with, where it begins and how many octets it takes. -/
structure Flaw where
  mistake : Mistake
  octet : UInt8
  start : Nat
  length : Nat
  deriving DecidableEq, Repr

def Mistake.message : Mistake → String
  | startOctet => "invalid start byte"
  | continuation => "invalid continuation byte"
  | endOfData => "unexpected end of data"

def Flaw.message (flaw : Flaw) : String :=
  let place :=
    if flaw.length = 1 then
      "byte 0x" ++ String.ofList (Text.hexDigits 2 flaw.octet.toNat) ++ " in position " ++
        toString flaw.start
    else
      "bytes in position " ++ toString flaw.start ++ "-" ++
        toString (flaw.start + flaw.length - 1)
  "'utf-8' codec can't decode " ++ place ++ ": " ++ flaw.mistake.message

/-- An octet with the bits `10` before its six bits of value. -/
def isTrail (b : UInt8) : Bool := 0x80 ≤ b && b < 0xC0

/-- The six bits of value of an octet. -/
def trailBits (b : UInt8) : Nat := b.toNat % 64

/-- May the second octet follow the first of three or four? The shortest form is asked for, no
surrogates, and no more code points than there are. -/
def mayFollow (a b : UInt8) : Bool :=
  isTrail b &&
    (if a = 0xE0 then 0xA0 ≤ b
    else if a = 0xED then b < 0xA0
    else if a = 0xF0 then 0x90 ≤ b
    else if a = 0xF4 then b < 0x90
    else true)

/-- One character at the head of octets: itself and its width, or a mistake and its width. -/
def head (a : UInt8) (rest : List UInt8) : Except (Mistake × Nat) (Char × Nat) :=
  if a < 0x80 then .ok (Char.ofNat a.toNat, 1)
  else if a < 0xC2 || 0xF5 ≤ a then .error (.startOctet, 1)
  else if a < 0xE0 then
    match rest with
    | [] => .error (.endOfData, 1)
    | b :: _ =>
      if isTrail b then .ok (Char.ofNat (a.toNat % 32 * 64 + trailBits b), 2)
      else .error (.continuation, 1)
  else
    match rest with
    | [] => .error (.endOfData, 1)
    | b :: rest =>
      if !mayFollow a b then .error (.continuation, 1)
      else
        match rest with
        | [] => .error (.endOfData, 2)
        | c :: rest =>
          if !isTrail c then .error (.continuation, 2)
          else if a < 0xF0 then
            .ok (Char.ofNat ((a.toNat % 16 * 64 + trailBits b) * 64 + trailBits c), 3)
          else
            match rest with
            | [] => .error (.endOfData, 3)
            | d :: _ =>
              if isTrail d then
                .ok (Char.ofNat
                  (((a.toNat % 8 * 64 + trailBits b) * 64 + trailBits c) * 64 + trailBits d), 4)
              else .error (.continuation, 3)

/-- The text of octets, the first of which has an offset; `skip` of them belong to a character that
has been read. -/
def decodeFrom : (start skip : Nat) → List UInt8 → Except Flaw Text
  | _, _, [] => .ok []
  | start, skip + 1, _ :: rest => decodeFrom (start + 1) skip rest
  | start, 0, a :: rest =>
    match head a rest with
    | .ok (c, width) => (decodeFrom (start + 1) (width - 1) rest).map (c :: ·)
    | .error (mistake, length) => .error ⟨mistake, a, start, length⟩

def decode (octets : List UInt8) : Except Flaw Text := decodeFrom 0 0 octets

def octetsOf (c : Char) : List UInt8 :=
  let n := c.toNat
  let trail (n : Nat) : UInt8 := UInt8.ofNat (0x80 + n % 64)
  if n < 0x80 then [UInt8.ofNat n]
  else if n < 0x800 then [UInt8.ofNat (0xC0 + n / 64), trail n]
  else if n < 0x10000 then [UInt8.ofNat (0xE0 + n / 4096), trail (n / 64), trail n]
  else [UInt8.ofNat (0xF0 + n / 262144), trail (n / 4096), trail (n / 64), trail n]

def encode (t : Text) : List UInt8 := t.flatMap octetsOf

end BundleHook.Utf8
