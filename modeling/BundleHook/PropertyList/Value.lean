import BundleHook.Number.Binary64
import BundleHook.PropertyList.Date

/-!
# Values of a property list

The values that a property list in markup holds. A dictionary keeps its keys in order, and no two of
them are the same.
-/

namespace BundleHook.PropertyList

/-- A value. -/
inductive Value where
  | text (value : Text)
  | flag (value : Bool)
  | integer (value : Int)
  | real (value : Binary64)
  | date (value : Date)
  | data (octets : List UInt8)
  | array (items : List Value)
  | dictionary (entries : List (Text × Value))
  deriving Repr

/-- Keys and the texts they are to have. -/
abbrev Items := List (Text × Text)

/-- The entries with a key set: in its place when it is there, else at the end. -/
def setEntry {α : Type} (key : Text) (value : α) : List (Text × α) → List (Text × α)
  | [] => [(key, value)]
  | (known, old) :: others =>
    if known = key then (key, value) :: others else (known, old) :: setEntry key value others

/-- Setting a key gives it its value. -/
theorem lookup_setEntry {α : Type} (key : Text) (value : α) (entries : List (Text × α)) :
    (setEntry key value entries).lookup key = some value := by
  induction entries with
  | nil => simp [setEntry]
  | cons entry others ih =>
    obtain ⟨known, old⟩ := entry
    simp only [setEntry]
    split
    · simp
    · next h => simp [List.lookup_cons, beq_eq_false_iff_ne.2 (Ne.symm h), ih]

/-- Setting a key leaves the values of the other keys. -/
theorem lookup_setEntry_of_ne {α : Type} {key other : Text} (h : other ≠ key) (value : α)
    (entries : List (Text × α)) :
    (setEntry key value entries).lookup other = entries.lookup other := by
  induction entries with
  | nil => simp [setEntry, h]
  | cons entry others ih =>
    obtain ⟨known, old⟩ := entry
    simp only [setEntry]
    split
    · next hk => subst hk; simp [List.lookup_cons, beq_eq_false_iff_ne.2 h]
    · simp only [List.lookup_cons, ih]

def Value.isText (wanted : Text) : Value → Bool
  | text value => value = wanted
  | _ => false

def hasAll (entries : List (Text × Value)) (items : Items) : Bool :=
  items.all fun (key, wanted) => (entries.lookup key).any (Value.isText wanted)

def setAll (entries : List (Text × Value)) (items : Items) : List (Text × Value) :=
  items.foldl (fun entries (key, value) => setEntry key (.text value) entries) entries

end BundleHook.PropertyList
