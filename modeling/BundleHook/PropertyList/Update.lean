import BundleHook.PropertyList.Archive
import BundleHook.PropertyList.Draft
import BundleHook.PropertyList.Rendering
import BundleHook.Text.Utf8

/-!
# Setting keys of a property list

A property list is markup or binary, and stays what it is. Setting keys keeps those that are there
in their places and appends the others; a file whose keys have their values already is left as it
is.
-/

namespace BundleHook.PropertyList

def isBlankOctet (b : UInt8) : Bool := b == 0x20 || (0x09 ≤ b && b ≤ 0x0D)

def isBlankFile (octets : Bytes) : Bool := octets.all isBlankOctet

def asciiOctets (s : String) : Bytes := s.toList.map fun c => UInt8.ofNat c.toNat

/-- How a file in markup begins, apart from a byte order mark. -/
def markupStarts : List String := ["<?xml", "<plist"]

/-- Does the file begin as markup, in the encoding that its byte order mark shows? -/
def isMarkup (octets : Bytes) : Bool :=
  markupStarts.any fun start =>
    let ascii := asciiOctets start
    ascii.isPrefixOf octets ||
      ([0xEF, 0xBB, 0xBF] ++ ascii).isPrefixOf octets ||
      ([0xFE, 0xFF] ++ ascii.flatMap fun b => [0, b]).isPrefixOf octets ||
      ([0xFF, 0xFE] ++ ascii.flatMap fun b => [b, 0]).isPrefixOf octets

def isBinary (octets : Bytes) : Bool := Archive.signature.isPrefixOf octets

/-- A property list whose top value is a dictionary. -/
inductive Document where
  | markup (entries : List (Text × Value))
  | binary (archive : Archive)

namespace Document

/-- The document of a file; a blank file is an empty dictionary. -/
def read (octets : Bytes) : Except Problem Document :=
  if isBlankFile octets then .ok (.markup [])
  else if isMarkup octets then do
    match ← readMarkup octets with
    | some (.dictionary entries) => return .markup entries
    | _ => throw (.flaw .notDictionary)
  else if isBinary octets then
    match Archive.read octets with
    | none => .error (.flaw .invalid)
    | some archive =>
      if archive.entries?.isSome then .ok (.binary archive) else .error (.flaw .notDictionary)
  else .error (.flaw .invalid)

def hasAll (document : Document) (items : Items) : Bool :=
  match document with
  | markup entries => PropertyList.hasAll entries items
  | binary archive => archive.hasAll items

def setAll (document : Document) (items : Items) : Document :=
  match document with
  | markup entries => .markup (PropertyList.setAll entries items)
  | binary archive => .binary (archive.setAll items)

def write : Document → Except Breakdown Bytes
  | markup entries => do return Utf8.encode (← writeMarkup (.dictionary entries))
  | binary archive => archive.write

end Document

/-- The file with all keys set. A file whose keys have their texts is its own result. -/
def upsert (octets : Bytes) (items : Items) : Except Problem Bytes := do
  let document ← Document.read octets
  if !isBlankFile octets && document.hasAll items then return octets
  else (document.setAll items).write.mapError Problem.breakdown

end BundleHook.PropertyList
