import BundleHook.Number.Binary64
import BundleHook.PropertyList.Octets

/-!
# Objects of a binary property list

A binary property list is a table of objects that name their parts by references, so that parts may
be shared and even lie inside themselves. This module reads an object from its octets and writes
one. Dates count microseconds from the first day of 2001.
-/

namespace BundleHook.PropertyList

/-- An object; its parts are references to other objects. -/
inductive BinaryObject where
  | null
  | flag (value : Bool)
  | integer (value : Int)
  | real (value : Binary64)
  | date (microseconds : Int)
  | data (octets : Bytes)
  | text (value : Text)
  | identifier (value : Nat)
  | array (items : List Nat)
  | dictionary (entries : List (Nat × Nat))
  deriving DecidableEq, Repr

namespace BinaryObject

/-- The references to the parts of the object: keys before values. -/
def parts : BinaryObject → List Nat
  | array items => items
  | dictionary entries => entries.map (·.1) ++ entries.map (·.2)
  | _ => []

def text? : BinaryObject → Option Text
  | text value => some value
  | _ => none

def isPlain : BinaryObject → Bool
  | array _ | dictionary _ => false
  | _ => true

/-! ## Dates -/

def dayLength : Int := 86400 * 1000000

/-- The microseconds from the first day of 2001 on which there are years of one to four digits. -/
def dateRange : Int × Int := (-730485 * dayLength, 2921574 * dayLength)

/-- The microseconds in a number of seconds. The part below a second is made microseconds as a
double, and these are rounded, a half to the even neighbour. -/
def microseconds? : Binary64 → Option Int
  | .finite negative mantissa exponent =>
    let (n, d) := Binary64.scaled mantissa 1 (-exponent)
    let small :=
      match Binary64.nearest false (n % d * 1000000) d with
      | .finite _ mantissa exponent =>
        let (n, d) := Binary64.scaled mantissa 1 (-exponent)
        Binary64.roundHalfEven n d
      | _ => 0
    let total : Int := ((n / d * 1000000 + small : Nat) : Int)
    let total := if negative then -total else total
    if dateRange.1 ≤ total && total < dateRange.2 then some total else none
  | _ => none

def seconds (microseconds : Int) : Binary64 :=
  Binary64.nearest (microseconds < 0) microseconds.natAbs 1000000

/-! ## Reading -/

/-- The first octets of a text and the others; `none` when there are fewer. -/
def split? (count : Nat) (octets : Bytes) : Option (Bytes × Bytes) :=
  let taken := octets.take count
  if taken.length = count then some (taken, octets.drop count) else none

/-- The size of an object and the octets behind it: it stands in the low bits of the marker or, when
these are all set, in a number behind it. -/
def size? (low : Nat) (octets : Bytes) : Option (Nat × Bytes) :=
  if low < 15 then some (low, octets)
  else do
    let (marker, octets) ← split? 1 octets
    let (number, octets) ← split? (1 <<< (numberOf marker % 4)) octets
    return (numberOf number, octets)

/-- References of `width` octets each. -/
def references? (width count : Nat) (octets : Bytes) : Option (List Nat × Bytes) :=
  if width = 0 then none
  else do
    let (taken, rest) ← split? (width * count) octets
    return (go width count taken, rest)
where
  go (width : Nat) : (count : Nat) → Bytes → List Nat
    | 0, _ => []
    | count + 1, octets => numberOf (octets.take width) :: go width count (octets.drop width)

/-- The object that octets begin with; `width` is that of references. A number that the end cuts
off is read as far as it goes. -/
def read (width : Nat) : Bytes → Option BinaryObject
  | [] => none
  | marker :: rest =>
    let high := marker.toNat / 16
    let low := marker.toNat % 16
    if marker = 0x00 then some null
    else if marker = 0x08 then some (flag false)
    else if marker = 0x09 then some (flag true)
    else if marker = 0x0F then some (data [])
    else if high = 0x1 then
      let octets := rest.take (1 <<< low)
      some (integer (if 3 ≤ low then signedOf octets else numberOf octets))
    else if marker = 0x22 then do
      return real (.ofShortWord (numberOf (← split? 4 rest).1))
    else if marker = 0x23 then do
      return real (.ofWord (numberOf (← split? 8 rest).1))
    else if marker = 0x33 then do
      return date (← microseconds? (.ofWord (numberOf (← split? 8 rest).1)))
    else if high = 0x4 then do
      let (size, rest) ← size? low rest
      return data (← split? size rest).1
    else if high = 0x5 then do
      let (size, rest) ← size? low rest
      return text (← narrowText? (← split? size rest).1)
    else if high = 0x6 then do
      let (size, rest) ← size? low rest
      return text (← wideText? (← split? (2 * size) rest).1)
    else if high = 0x8 then
      let value := numberOf (rest.take (low + 1))
      if value < 1 <<< 64 then some (identifier value) else none
    else if high = 0xA then do
      let (size, rest) ← size? low rest
      return array (← references? width size rest).1
    else if high = 0xD then do
      let (size, rest) ← size? low rest
      let (keys, rest) ← references? width size rest
      let (values, _) ← references? width size rest
      return dictionary (keys.zip values)
    else none

/-! ## Writing -/

/-- The number of octets for counts up to `n`. -/
def widthFor (n : Nat) : Nat :=
  if n < 1 <<< 8 then 1 else if n < 1 <<< 16 then 2 else if n < 1 <<< 32 then 4 else 8

/-- The marker of an object with its size. -/
def sized (high size : Nat) : Bytes :=
  if size < 15 then [UInt8.ofNat (high * 16 + size)]
  else
    let width := widthFor size
    UInt8.ofNat (high * 16 + 15) :: UInt8.ofNat (0x10 + width.log2) :: octetsOf width size

/-- An integer in octets; `none` when it has no form of at most 64 bits. -/
def integerOctets (n : Int) : Option Bytes :=
  if n < 0 then
    if -(1 <<< 63 : Nat) ≤ n then some (0x13 :: octetsOf 8 (n + (1 <<< 64 : Nat)).toNat) else none
  else
    let n := n.toNat
    if n < 1 <<< 63 then
      let width := widthFor n
      some (UInt8.ofNat (0x10 + width.log2) :: octetsOf width n)
    else if n < 1 <<< 64 then some (0x14 :: octetsOf 16 n)
    else none

/-- A text in octets: one for each character when all are ASCII, else two for each unit. -/
def textOctets (t : Text) : Bytes :=
  if t.all (·.toNat < 0x80) then sized 0x5 t.length ++ t.map fun c => UInt8.ofNat c.toNat
  else
    let octets := t.flatMap wideOctets
    sized 0x6 (octets.length / 2) ++ octets

def identifierOctets (n : Nat) : Bytes :=
  let width := widthFor n
  UInt8.ofNat (0x80 + (width - 1)) :: octetsOf width n

/-- The object in octets, its parts by their numbers; `none` for an integer out of range. -/
def write (width : Nat) (numberOf : Nat → Nat) : BinaryObject → Option Bytes
  | null => some [0x00]
  | flag false => some [0x08]
  | flag true => some [0x09]
  | integer n => integerOctets n
  | real x => some (0x23 :: octetsOf 8 x.toWord)
  | date microseconds => some (0x33 :: octetsOf 8 (seconds microseconds).toWord)
  | data octets => some (sized 0x4 octets.length ++ octets)
  | text t => some (textOctets t)
  | identifier n => some (identifierOctets n)
  | array items =>
    some (sized 0xA items.length ++ items.flatMap fun ref => octetsOf width (numberOf ref))
  | dictionary entries =>
    some (sized 0xD entries.length ++
      (dictionary entries).parts.flatMap fun ref => octetsOf width (numberOf ref))

end BinaryObject

end BundleHook.PropertyList
