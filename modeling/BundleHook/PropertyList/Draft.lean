import BundleHook.Markup.Event
import BundleHook.Number.Numeral
import BundleHook.PropertyList.Encoding
import BundleHook.PropertyList.Value

/-!
# Reading property lists in markup

Elements stand for values by their names; elements of other names do not count. An element that
reads its text takes what stands behind the last start tag and was not taken before. The value
outside all containers that comes last is the value of the document.
-/

namespace BundleHook.PropertyList

open Markup

/-- A container whose end has not been read; the items of an array come latest first. -/
inductive OpenContainer where
  | dictionary (entries : List (Text × Value))
  | array (items : List Value)

/-- A container with the key it stands behind. -/
structure OpenValue where
  key : Option Text
  container : OpenContainer

/-- The state of a reading: the containers and the elements that are open, innermost first, the key
that waits for its value, the text, latest character first, and the value so far. -/
structure Draft where
  containers : List OpenValue
  elements : List Text
  key : Option Text
  text : Text
  value : Option Value

namespace Draft

def initial : Draft := ⟨[], [], none, [], none⟩

def lineAt (document : Text) (offset : Nat) : Nat := (positionAt document offset).line

def fail {α : Type} (flaw : Flaw) : Except Problem α := .error (.flaw flaw)

/-- Checks that a value may stand here: behind a key in a dictionary, without one elsewhere. -/
def allowsValue (d : Draft) (document : Text) (offset : Nat) : Except Problem Unit :=
  match d.key, d.containers with
  | some _, [] => .error (.breakdown .outsideContainer)
  | some _, ⟨_, .dictionary _⟩ :: _ | none, ⟨_, .array _⟩ :: _ | none, [] => .ok ()
  | _, _ :: _ => fail (.unexpectedElement (lineAt document offset))

/-- Puts a value in its place: behind its key, into its array, or as the value of the document. -/
def place (key : Option Text) (value : Value) (d : Draft) : Draft :=
  match key, d.containers with
  | some key, ⟨outer, .dictionary entries⟩ :: others =>
    { d with containers := ⟨outer, .dictionary (setEntry key value entries)⟩ :: others }
  | _, ⟨outer, .array items⟩ :: others =>
    { d with containers := ⟨outer, .array (value :: items)⟩ :: others }
  | _, ⟨_, .dictionary _⟩ :: _ => d
  | _, [] => { d with value := some value }

def add (d : Draft) (document : Text) (offset : Nat) (value : Value) : Except Problem Draft := do
  d.allowsValue document offset
  return { d with key := none }.place d.key value

def openContainer (d : Draft) (document : Text) (offset : Nat) (container : OpenContainer) :
    Except Problem Draft := do
  d.allowsValue document offset
  return { d with containers := ⟨d.key, container⟩ :: d.containers, key := none }

def closeContainer (d : Draft) : Draft :=
  match d.containers with
  | [] => d
  | ⟨key, .dictionary entries⟩ :: others =>
    { d with containers := others }.place key (.dictionary entries)
  | ⟨key, .array items⟩ :: others =>
    { d with containers := others }.place key (.array items.reverse)

/-- Does a key wait for its value? An empty key is not waited for. -/
def waitingKey? (d : Draft) : Option Text :=
  d.key.bind fun key => if key.isEmpty then none else some key

def closeKey (d : Draft) (document : Text) (offset : Nat) : Except Problem Draft :=
  let unexpected : Except Problem Draft := fail (.unexpectedKey (lineAt document offset))
  match d.waitingKey?, d.containers with
  | some _, _ => unexpected
  | none, [] => .error (.breakdown .outsideContainer)
  | none, ⟨_, .array _⟩ :: _ => unexpected
  | none, ⟨_, .dictionary _⟩ :: _ => .ok { d with key := some d.text.reverse, text := [] }

def integerOf (t : Text) : Except Problem Value :=
  if t.startsWith "0x".toList || t.startsWith "0X".toList then
    match Numeral.hexadecimal? t with
    | some n => .ok (.integer n)
    | none => fail (.integer 16 t)
  else
    match Numeral.decimal? t with
    | .ok n => .ok (.integer n)
    | .error .malformed => fail (.integer 10 t)
    | .error (.tooLong digits) => fail (.longInteger digits)

/-- The flag that an element stands for by its name alone. -/
def flag? (element : Text) : Option Bool :=
  if element = "true".toList then some true
  else if element = "false".toList then some false
  else none

/-- The value that an element without parts writes in its text. -/
def leaf? (element t : Text) : Option (Except Problem Value) :=
  if element = "integer".toList then some (integerOf t)
  else if element = "real".toList then
    some (match Numeral.real? t with
      | some x => .ok (.real x)
      | none => fail (.real t))
  else if element = "string".toList then some (.ok (.text t))
  else if element = "data".toList then
    some (match Base64.decode t with
      | .ok octets => .ok (.data octets)
      | .error flaw => fail (.base64 flaw))
  else if element = "date".toList then
    some (match Date.read t with
      | .ok date => .ok (.date date)
      | .error flaw => .error flaw.problem)
  else none

theorem leaf?_real (t : Text) :
    leaf? "real".toList t = some (match Numeral.real? t with
      | some x => .ok (.real x)
      | none => fail (.real t)) := rfl

theorem leaf?_data (t : Text) :
    leaf? "data".toList t = some (match Base64.decode t with
      | .ok octets => .ok (.data octets)
      | .error flaw => fail (.base64 flaw)) := rfl

theorem leaf?_date (t : Text) :
    leaf? "date".toList t = some (match Date.read t with
      | .ok date => .ok (.date date)
      | .error flaw => .error flaw.problem) := rfl

def closeElement (d : Draft) (document : Text) (offset : Nat) (element : Text) :
    Except Problem Draft :=
  if element = "dict".toList then
    match d.waitingKey? with
    | some key => fail (.missingValue key (lineAt document offset))
    | none => .ok d.closeContainer
  else if element = "array".toList then .ok d.closeContainer
  else if element = "key".toList then d.closeKey document offset
  else
    match flag? element, leaf? element d.text.reverse with
    | some value, _ => d.add document offset (.flag value)
    | none, some value => do ({ d with text := [] } : Draft).add document offset (← value)
    | none, none => .ok d

def take (document : Text) (d : Draft) (entry : Nat × Event) : Except Problem Draft :=
  let (offset, event) := entry
  match event with
  | .opened name _ =>
    let d := { d with text := [], elements := name.part :: d.elements }
    if name.part = "dict".toList then d.openContainer document offset (.dictionary [])
    else if name.part = "array".toList then d.openContainer document offset (.array [])
    else .ok d
  | .closed =>
    match d.elements with
    | element :: elements => { d with elements }.closeElement document offset element
    | [] => .ok d
  | .char c => .ok { d with text := c :: d.text }
  | .entityDeclared => fail .entityDeclared
  | .comment _ | .skipped _ => .ok d

end Draft

/-- The problem with a document that its encoding makes unreadable. -/
def EncodingFault.problem (document : Text) : EncodingFault → Problem
  | wrong offset => .flaw (.malformed document ⟨.wrongEncoding, offset⟩)
  | wide => .flaw .wideEncoding
  | unknown name => .breakdown (.unknownEncoding name)

/-- The value of a property list in markup, if it has one. -/
def readMarkup (bytes : Bytes) : Except Problem (Option Value) := do
  let (decoded, encodingFault) := Decoded.ofBytes bytes
  match encodingFault with
  | some fault => .error (fault.problem decoded.text)
  | none =>
    let events := Events.ofTokens false false decoded.tokens
    let draft ← events.list.foldlM (Draft.take decoded.text) .initial
    match events.fault with
    | some fault => Draft.fail (.malformed decoded.text fault)
    | none => return draft.value

end BundleHook.PropertyList
