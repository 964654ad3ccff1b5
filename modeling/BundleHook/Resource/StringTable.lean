import BundleHook.Failure
import BundleHook.Markup.Rendering

/-!
# String resources

An Android resource file names strings. Setting strings keeps those that are there in their places
and appends the others; a file whose strings have their values already is left as it is.
-/

namespace BundleHook.StringTable

open Markup

/-- Names with the values they are to have. -/
abbrev Items := List (Text × Text)

/-- What can be wrong with a string table. -/
inductive Flaw where
  | malformed (fault : Fault)
  | unexpectedRoot (label : Text)
  deriving DecidableEq, Repr

def Flaw.failure (document : Text) : Flaw → Failure
  | malformed fault =>
    let message := fault.message document
    .inner (.resource "strings.xml") message [] (some (.outer message))
  | unexpectedRoot label =>
    .ofMessage (.resource "strings.xml")
      ("unexpected root element <" ++ String.ofList label ++ ">")

def rootName : Name := .plain "resources"

def stringName : Name := .plain "string"

def keyName : Name := .plain "name"

/-- Does the node hold the string of a name? -/
def isStringNamed (key : Text) : Node → Bool
  | .element name attributes _ _ _ => name = stringName && attributes.lookup keyName = some key
  | .comment _ _ => false

/-- The value of a string: the text before its first child. -/
def valueOf : Node → Text
  | .element _ _ lead _ _ => lead
  | .comment _ _ => []

/-- The value of the last string of a name. -/
def find? (children : List Node) (key : Text) : Option Text :=
  (children.reverse.find? (isStringNamed key)).map valueOf

def newString (key value : Text) : Node := .element stringName [(keyName, key)] value [] []

/-- The children with a change of the last one that is wanted; `none` when none is. -/
def changeLast (wanted : Node → Bool) (change : Node → Node) : List Node → Option (List Node)
  | [] => none
  | node :: others =>
    match changeLast wanted change others with
    | some changed => some (node :: changed)
    | none => if wanted node then some (change node :: others) else none

/-- The children with one string set: the last one of its name, or a new one at the end. -/
def set (children : List Node) (key value : Text) : List Node :=
  (changeLast (isStringNamed key) (Node.withLead value) children).getD
    (children ++ [newString key value])

def setAll (items : Items) : Node → Node
  | .element name attributes lead children tail =>
    .element name attributes lead
      (items.foldl (fun children (key, value) => set children key value) children) tail
  | .comment body tail => .comment body tail

def emptyRoot : Node := .element rootName [] [] [] []

/-- The root of a table; a blank text is an empty table. -/
def read (t : Text) : Except Flaw Node :=
  if Text.isBlankText t then .ok emptyRoot
  else
    match Node.ofDocument t with
    | .error fault => .error (.malformed fault)
    | .ok root =>
      if root.name = rootName then .ok root else .error (.unexpectedRoot root.name.label)

def hasAll (root : Node) (items : Items) : Bool :=
  items.all fun (key, value) => find? root.children key = some value

/-- What a written document declares about itself. -/
def declaration : Text := "<?xml version=\"1.0\" encoding=\"utf-8\"?>\n".toList

/-- A table as a document; it declares itself when `t`, which it replaces, does. -/
def write (t : Text) (root : Node) : Text :=
  (if t.trimStart.startsWith "<?xml".toList then declaration else []) ++
    root.indented.render ++ ['\n']

/-- The table with all strings set. A text whose strings have their values is its own result. -/
def upsert (t : Text) (items : Items) : Except Flaw Text := do
  let root ← read t
  return if !Text.isBlankText t && hasAll root items then t else write t (setAll items root)

end BundleHook.StringTable
