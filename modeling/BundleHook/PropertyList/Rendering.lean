import BundleHook.Number.Shortest
import BundleHook.PropertyList.Problem
import BundleHook.PropertyList.Value
import BundleHook.Text.Lines

/-!
# Writing property lists in markup

Every value stands on lines of its own, one tab deeper than the container it is in; data is broken
into lines that keep a common width. A text with control characters and an integer of more than 64
bits cannot be written.
-/

namespace BundleHook.PropertyList

/-- Characters that markup cannot hold: the controls other than tab and line ends. -/
def isControl (c : Char) : Bool :=
  c.toNat < 0x20 && c != '\t' && c != '\n' && c != '\r'

def escape (c : Char) : Text :=
  if c = '&' then "&amp;".toList
  else if c = '<' then "&lt;".toList
  else if c = '>' then "&gt;".toList
  else [c]

/-- A text in markup, its line ends made line feeds. -/
def escapeText (t : Text) : Except Breakdown Text :=
  if t.any isControl then .error .controlCharacter
  else .ok ((Text.unifyLines t).flatMap escape)

def writtenLine (level : Nat) (content : Text) : Text :=
  List.replicate level '\t' ++ content ++ ['\n']

def tag (name : String) : Text := '<' :: name.toList ++ ['>']

def leafLine (level : Nat) (name : String) (content : Text) : Text :=
  writtenLine level (tag name ++ content ++ tag ("/" ++ name))

def emptyLine (level : Nat) (name : String) : Text := writtenLine level (tag (name ++ "/"))

/-- The parts of a list of at most `width` items each; `width` is not zero. -/
def chunks {α : Type} (width : Nat) (items : List α) : List (List α) :=
  go items.length items
where
  /-- As many parts as `steps` at most. -/
  go : (steps : Nat) → List α → List (List α)
    | 0, _ => []
    | steps + 1, items =>
      if items.isEmpty then [] else items.take width :: go steps (items.drop width)

/-- The number of octets on a line of data at a level: lines are narrower the deeper they stand,
down to 16 characters. -/
def octetsPerLine (level : Nat) : Nat := max 16 (76 - 8 * level) / 4 * 3

def dataLines (level : Nat) (octets : List UInt8) : Text :=
  writtenLine level (tag "data") ++
    (chunks (octetsPerLine level) octets).flatMap (fun part =>
      writtenLine level (Base64.encode part)) ++
    writtenLine level (tag "/data")

def holdsInteger (n : Int) : Bool := -(1 <<< 63 : Nat) ≤ n && n < (1 <<< 64 : Nat)

mutual

def Value.write (level : Nat) : Value → Except Breakdown Text
  | .text t => do return leafLine level "string" (← escapeText t)
  | .flag b => .ok (emptyLine level (if b then "true" else "false"))
  | .integer n =>
    if holdsInteger n then .ok (leafLine level "integer" (toString n).toList)
    else .error (.integerRange n)
  | .real x => .ok (leafLine level "real" x.text.toList)
  | .date d => .ok (leafLine level "date" d.write)
  | .data octets => .ok (dataLines level octets)
  | .array [] => .ok (emptyLine level "array")
  | .array (item :: items) => do
    return writtenLine level (tag "array") ++ (← writeItems (level + 1) (item :: items)) ++
      writtenLine level (tag "/array")
  | .dictionary [] => .ok (emptyLine level "dict")
  | .dictionary (entry :: entries) => do
    return writtenLine level (tag "dict") ++ (← writeEntries (level + 1) (entry :: entries)) ++
      writtenLine level (tag "/dict")

/-- Values at a level, one after the other. -/
def writeItems (level : Nat) : List Value → Except Breakdown Text
  | [] => .ok []
  | item :: others => do return (← item.write level) ++ (← writeItems level others)

def writeEntries (level : Nat) : List (Text × Value) → Except Breakdown Text
  | [] => .ok []
  | (key, value) :: others => do
    let key := leafLine level "key" (← escapeText key)
    return key ++ (← value.write level) ++ (← writeEntries level others)

end

def documentHead : Text :=
  ("<?xml version=\"1.0\" encoding=\"UTF-8\"?>\n" ++
    "<!DOCTYPE plist PUBLIC \"-//Apple//DTD PLIST 1.0//EN\" " ++
    "\"http://www.apple.com/DTDs/PropertyList-1.0.dtd\">\n" ++
    "<plist version=\"1.0\">\n").toList

def writeMarkup (value : Value) : Except Breakdown Text := do
  return documentHead ++ (← value.write 0) ++ "</plist>\n".toList

end BundleHook.PropertyList
