import BundleHook.Number.Shortest
import BundleHook.Text.Quoted

/-!
# Data of settings

Settings come as nested data without types of their own. A record keeps the order of its fields.
-/

namespace BundleHook

/-- A piece of settings. -/
inductive Datum where
  | null
  | bool (value : Bool)
  | integer (value : Int)
  | real (value : Binary64)
  | text (value : String)
  | list (items : List Datum)
  | record (fields : List (String × Datum))
  deriving Repr, Inhabited

namespace Datum

/-- The value of a field. When a record names a field twice the later value counts. -/
def field? (fields : List (String × Datum)) (name : String) : Option Datum :=
  (fields.reverse.find? (·.1 = name)).map (·.2)

def commaJoined (parts : List String) : String := ", ".intercalate parts

def quotedString (s : String) : String := String.ofList (Text.quoted s.toList)

mutual

/-- The datum on one line, as it stands in error messages. -/
def inline : Datum → String
  | null => "None"
  | bool true => "True"
  | bool false => "False"
  | integer value => toString value
  | real value => value.text
  | text value => quotedString value
  | list items => "[" ++ commaJoined (inlineItems items) ++ "]"
  | record fields => "\x7b" ++ commaJoined (inlineFields fields) ++ "\x7d"

/-- The items of a list, each on one line. -/
def inlineItems : List Datum → List String
  | [] => []
  | item :: others => inline item :: inlineItems others

/-- The fields of a record, each on one line. -/
def inlineFields : List (String × Datum) → List String
  | [] => []
  | (name, value) :: others => (quotedString name ++ ": " ++ inline value) :: inlineFields others

end

end Datum

end BundleHook
