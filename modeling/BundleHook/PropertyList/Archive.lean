import BundleHook.PropertyList.BinaryObject
import BundleHook.PropertyList.Problem
import BundleHook.PropertyList.Value

/-!
# Binary property lists

An archive holds the objects that its top object reaches. Setting a key adds new objects for the key
and its text. Written, an archive holds equal plain objects once, and the objects come in the order
in which they are reached, keys before values.
-/

namespace BundleHook.PropertyList

/-- The objects of a binary property list by their references, and the reference of the top one. -/
structure Archive where
  objects : List (Nat × BinaryObject)
  top : Nat

namespace Archive

def object? (a : Archive) (ref : Nat) : Option BinaryObject := a.objects.lookup ref

def text? (a : Archive) (ref : Nat) : Option Text := (a.object? ref).bind BinaryObject.text?

/-! ## Reading -/

/-- The octets of a file and what their trailer says. -/
structure Source where
  octets : Bytes
  offsets : Array Nat
  width : Nat
  top : Nat

def trailerLength : Nat := 32

/-- The source of a file, from the trailer at its end. -/
def Source.of (octets : Bytes) : Option Source :=
  if octets.length < trailerLength then none
  else do
    let trailer := (octets.drop (octets.length - trailerLength)).drop 6
    let field (start width : Nat) : Nat := numberOf ((trailer.drop start).take width)
    let (offsets, _) ← BinaryObject.references? (field 0 1) (field 2 8) (octets.drop (field 18 8))
    return ⟨octets, offsets.toArray, field 1 1, field 10 8⟩

def Source.object? (s : Source) (ref : Nat) : Option BinaryObject := do
  BinaryObject.read s.width (s.octets.drop (← s.offsets[ref]?))

/-- The objects that references reach, with the known ones before them. -/
def Source.reached (s : Source) : (rounds : Nat) → (known : List (Nat × BinaryObject)) →
    List Nat → Option (List (Nat × BinaryObject))
  | rounds, known, refs =>
    match refs.eraseDups.filter fun ref => (known.lookup ref).isNone with
    | [] => some known
    | ref :: others =>
      match rounds with
      | 0 => none
      | rounds + 1 => do
        let objects ← (ref :: others).mapM fun ref => do return (ref, ← s.object? ref)
        reached s rounds (known ++ objects) (objects.flatMap (·.2.parts))

/-- Are the keys of all dictionaries plain? -/
def hasPlainKeys (a : Archive) : Bool :=
  a.objects.all fun (_, object) =>
    match object with
    | .dictionary entries =>
      entries.all fun (key, _) => (a.object? key).any BinaryObject.isPlain
    | _ => true

/-- Entries in which no text is a key twice: the first place and the last value count. -/
def distinctEntries (a : Archive) (entries : List (Nat × Nat)) : List (Nat × Nat) :=
  entries.foldl (fun known (key, value) =>
    if (a.text? key).isSome && known.any fun entry => a.text? entry.1 = a.text? key then
      known.map fun entry => if a.text? entry.1 = a.text? key then (entry.1, value) else entry
    else known ++ [(key, value)]) []

/-- The archive with distinct keys in its dictionaries. -/
def withDistinctKeys (a : Archive) : Archive :=
  { a with
    objects := a.objects.map fun (ref, object) =>
      match object with
      | .dictionary entries => (ref, .dictionary (a.distinctEntries entries))
      | object => (ref, object) }

/-- The archive of a file; `none` when the file is broken. -/
def read (octets : Bytes) : Option Archive := do
  let s ← Source.of octets
  let objects ← s.reached (s.offsets.size + 1) [] [s.top]
  let a : Archive := ⟨objects, s.top⟩
  if a.hasPlainKeys then some a.withDistinctKeys else none

/-! ## Keys of the top object -/

/-- The entries of the top object, when it is a dictionary. -/
def entries? (a : Archive) : Option (List (Nat × Nat)) :=
  match a.object? a.top with
  | some (.dictionary entries) => some entries
  | _ => none

def valueOf? (a : Archive) (key : Text) : Option Nat :=
  (a.entries?.getD []).findSome? fun (ref, value) =>
    if a.text? ref = some key then some value else none

def hasAll (a : Archive) (items : Items) : Bool :=
  items.all fun (key, wanted) => (a.valueOf? key).any fun ref => a.text? ref = some wanted

/-- A reference that is not used. -/
def unused (a : Archive) : Nat := a.objects.foldl (fun n (ref, _) => max n (ref + 1)) 0

/-- The archive with a key of the top object set to a text. -/
def set (a : Archive) (key value : Text) : Archive :=
  match a.entries? with
  | none => a
  | some entries =>
    let ref := a.unused
    let added := [(ref, BinaryObject.text value), (ref + 1, .text key)]
    let isKey (entry : Nat × Nat) : Bool := a.text? entry.1 = some key
    let entries :=
      if entries.any isKey then
        entries.map fun entry => if isKey entry then (entry.1, ref) else entry
      else entries ++ [(ref + 1, ref)]
    let objects := a.objects.map fun (known, object) =>
      if known = a.top then (known, BinaryObject.dictionary entries) else (known, object)
    { a with objects := objects ++ added }

def setAll (a : Archive) (items : Items) : Archive :=
  items.foldl (fun a (key, value) => a.set key value) a

/-! ## Writing -/

/-- What makes two references name the same object in a file: plain values are the same when they
are equal, everything else when the references are. -/
inductive Identity where
  | value (object : BinaryObject)
  | place (ref : Nat)
  deriving DecidableEq

/-- The identity of an object. The two zeros are equal, and an undefined number equals none. -/
def identityOf (ref : Nat) : BinaryObject → Identity
  | .real (.finite _ 0 _) => .value (.real (.finite false 0 Binary64.leastExponent))
  | .real (.undefined _ _) | .identifier _ | .array _ | .dictionary _ => .place ref
  | object => .value object

def identity (a : Archive) (ref : Nat) : Identity :=
  match a.object? ref with
  | some object => identityOf ref object
  | none => .place ref

/-- The objects to write, each with its identity, from those already met and the references still to
be looked at. `steps` bounds how many are looked at. -/
def laidOut (a : Archive) : (steps : Nat) → (met : List (Identity × BinaryObject)) → List Nat →
    List (Identity × BinaryObject)
  | 0, met, _ => met
  | _, met, [] => met
  | steps + 1, met, ref :: others =>
    let identity := a.identity ref
    if met.any (·.1 = identity) then laidOut a steps met others
    else
      match a.object? ref with
      | none => laidOut a steps met others
      | some object => laidOut a steps (met ++ [(identity, object)]) (object.parts ++ others)

def layout (a : Archive) : List (Identity × BinaryObject) :=
  let steps := a.objects.foldl (fun n (_, object) => n + object.parts.length) 1
  a.laidOut steps [] [a.top]

def hasForeignKey (a : Archive) (objects : List BinaryObject) : Bool :=
  objects.any fun object =>
    match object with
    | .dictionary entries => entries.any fun (key, _) => (a.text? key).isNone
    | _ => false

/-- The integer of an object that cannot be written. -/
def integerOf : BinaryObject → Int
  | .integer n => n
  | _ => 0

/-- The objects in octets, each behind the others. -/
def writeAll (width : Nat) (numberOf : Nat → Nat) :
    List BinaryObject → Except Breakdown (List Bytes)
  | [] => .ok []
  | object :: others =>
    match object.write width numberOf with
    | some octets => do return octets :: (← writeAll width numberOf others)
    | none => .error (.integerRange (integerOf object))

/-- Where objects of these octets begin, the first of them at `start`. -/
def offsetsFrom (start : Nat) : List Bytes → List Nat
  | [] => []
  | octets :: others => start :: offsetsFrom (start + octets.length) others

def signature : Bytes := "bplist00".toList.map fun c => UInt8.ofNat c.toNat

def write (a : Archive) : Except Breakdown Bytes := do
  let layout := a.layout
  let objects := layout.map (·.2)
  if a.hasForeignKey objects then throw .keyNotText
  let identities := layout.map (·.1)
  let width := BinaryObject.widthFor objects.length
  let numberOf (ref : Nat) : Nat := identities.idxOf (a.identity ref)
  let parts ← writeAll width numberOf objects
  let tableOffset := signature.length + parts.flatten.length
  -- Offsets have eight octets at most.
  if 1 <<< 64 ≤ tableOffset then throw (.integerRange tableOffset)
  let offsetWidth := BinaryObject.widthFor tableOffset
  let table := (offsetsFrom signature.length parts).flatMap (octetsOf offsetWidth)
  let trailer :=
    octetsOf 6 0 ++ octetsOf 1 offsetWidth ++ octetsOf 1 width ++ octetsOf 8 objects.length ++
      octetsOf 8 0 ++ octetsOf 8 tableOffset
  return signature ++ parts.flatten ++ table ++ trailer

end Archive

end BundleHook.PropertyList
