import BundleHook.Settings.Datum

/-!
# Checking settings

A check turns a datum into a value of a type, or says what does not fit and where. All fields of a
record are checked, so that every complaint is made at once, in the order of the fields.
-/

namespace BundleHook

/-- How a datum fails to fit. -/
inductive Mismatch where
  | missing
  | notText
  /-- A datum that can never be a truth value. -/
  | notFlag
  /-- A text or a number that is none of the spellings of a truth value. -/
  | unknownFlag
  /-- Not one of the allowed words. -/
  | notAllowed
  /-- Not the name of a case. -/
  | unknownCase
  | notList
  | notRecord
  deriving DecidableEq, Repr

/-- A step into nested data. -/
inductive Step where
  | field (name : String)
  | item (index : Nat)
  deriving DecidableEq, Repr

/-- A mismatch and where it is. -/
structure Complaint where
  mismatch : Mismatch
  path : List Step
  deriving DecidableEq, Repr

/-- The result of a check. -/
inductive Checked (α : Type) where
  | fits (value : α)
  | wrong (complaints : List Complaint)

namespace Checked

def refuse {α : Type} (mismatch : Mismatch) : Checked α := wrong [⟨mismatch, []⟩]

def map {α β : Type} (f : α → β) : Checked α → Checked β
  | fits value => fits (f value)
  | wrong complaints => wrong complaints

/-- Both results: the complaints of the first come before those of the second. -/
def apply {α β : Type} (f : Checked (α → β)) (x : Checked α) : Checked β :=
  match f, x with
  | fits f, x => x.map f
  | wrong complaints, fits _ => wrong complaints
  | wrong complaints, wrong others => wrong (complaints ++ others)

instance : Applicative Checked where
  pure := fits
  map := map
  seq f x := apply f (x ())

def within {α : Type} (step : Step) : Checked α → Checked α
  | fits value => fits value
  | wrong complaints => wrong (complaints.map fun c => { c with path := step :: c.path })

end Checked

/-- A check of a datum. -/
abbrev Check (α : Type) := Datum → Checked α

namespace Check

def text : Check String
  | .text value => .fits value
  | _ => .refuse .notText

def orNull {α : Type} (check : Check α) : Check (Option α)
  | .null => .fits none
  | datum => (check datum).map some

/-- The words for a truth value; case does not count. -/
def flagWords : List (String × Bool) :=
  [("0", false), ("off", false), ("f", false), ("false", false), ("n", false), ("no", false),
   ("1", true), ("on", true), ("t", true), ("true", true), ("y", true), ("yes", true)]

/-- The whole numbers that may have been meant as truth values, those of 64 bits. -/
def isWord (n : Int) : Bool := -(1 <<< 63 : Nat) ≤ n && n < (1 <<< 63 : Nat)

/-- A truth value, given as such, as a word, or as zero or one. -/
def flag : Check Bool
  | .bool value => .fits value
  | .text word =>
    match flagWords.lookup (word.map Char.toLower) with
    | some value => .fits value
    | none => .refuse .unknownFlag
  | .integer n => ofNumber n
  | .real value =>
    match value.whole? with
    | some n => ofNumber n
    | none => .refuse .notFlag
  | _ => .refuse .notFlag
where
  ofNumber (n : Int) : Checked Bool :=
    if n = 0 then .fits false
    else if n = 1 then .fits true
    else .refuse (if isWord n then .unknownFlag else .notFlag)

/-- One of some words, each with its value. -/
def word {α : Type} (otherwise : Mismatch) (words : List (String × α)) : Check α
  | .text given =>
    match words.lookup given with
    | some value => .fits value
    | none => .refuse otherwise
  | _ => .refuse otherwise

def items {α : Type} (check : Check α) : (index : Nat) → List Datum → Checked (List α)
  | _, [] => .fits []
  | index, datum :: others =>
    ((check datum).within (.item index)).map List.cons |>.apply (items check (index + 1) others)

def listOf {α : Type} (check : Check α) : Check (List α)
  | .list data => items check 0 data
  | _ => .refuse .notList

/-- A record, by a check of its fields. -/
def record {α : Type} (check : List (String × Datum) → Checked α) : Check α
  | .record fields => check fields
  | _ => .refuse .notRecord

/-- The first of some names that a record has a field for, with its value. -/
def firstField? (fields : List (String × Datum)) : List String → Option (String × Datum)
  | [] => none
  | name :: others =>
    match Datum.field? fields name with
    | some datum => some (name, datum)
    | none => firstField? fields others

/-- A field under one of its names, the first one that is there; `default` when there is none. -/
def fieldOr {α : Type} (default : α) (names : List String) (check : Check α)
    (fields : List (String × Datum)) : Checked α :=
  match firstField? fields names with
  | some (name, datum) => (check datum).within (.field name)
  | none => .fits default

def field {α : Type} (name : String) (check : Check α) (fields : List (String × Datum)) :
    Checked α :=
  match Datum.field? fields name with
  | some datum => (check datum).within (.field name)
  | none => .wrong [⟨.missing, [.field name]⟩]

end Check

end BundleHook
