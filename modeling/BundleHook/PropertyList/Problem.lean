import BundleHook.Failure
import BundleHook.Markup.Fault
import BundleHook.PropertyList.Base64
import BundleHook.PropertyList.Date
import BundleHook.Text.Quoted

/-!
# Problems with property lists

A flaw makes a file unreadable as a property list, and is reported as a failure of the resource. A
breakdown is a problem that nobody looks after: it ends the run.
-/

namespace BundleHook

/-- A problem that ends a run. -/
inductive Breakdown where
  | unreadableDate
  /-- A date has no day. -/
  | incompleteDate
  /-- A key, or a value behind a key, stands outside all containers. -/
  | outsideContainer
  | unknownEncoding (name : Text)
  /-- An integer that a property list cannot hold. -/
  | integerRange (value : Int)
  /-- A text with control characters, which markup cannot hold. -/
  | controlCharacter
  /-- A dictionary has a key that is no text. -/
  | keyNotText
  deriving DecidableEq, Repr

def Breakdown.message : Breakdown → String
  | unreadableDate => "a date is not written as one"
  | incompleteDate => "a date has no day"
  | outsideContainer => "a key stands outside all containers"
  | unknownEncoding name => "unknown encoding: " ++ String.ofList name
  | integerRange value => toString value
  | controlCharacter => "strings can't contain control characters; use bytes instead"
  | keyNotText => "a key is no text"

namespace PropertyList

/-- What makes a file no property list. -/
inductive Flaw where
  /-- Neither of the two formats, or a broken binary one. -/
  | invalid
  | malformed (document : Text) (fault : Markup.Fault)
  | entityDeclared
  | unexpectedElement (line : Nat)
  | unexpectedKey (line : Nat)
  | missingValue (key : Text) (line : Nat)
  | integer (base : Nat) (text : Text)
  | longInteger (digits : Nat)
  | real (text : Text)
  | base64 (flaw : Base64.Flaw)
  | year (value : Nat)
  | month
  | day
  | hour
  | minute
  | second
  /-- The encoding takes more than one octet for some characters. -/
  | wideEncoding
  | notDictionary
  deriving DecidableEq, Repr

/-- A text between quotes, as a message shows it. -/
def shown (t : Text) : String := String.ofList (Text.quoted t)

def Flaw.message : Flaw → String
  | invalid => "Invalid file"
  | malformed document fault => fault.message document
  | entityDeclared => "XML entity declarations are not supported in plist files"
  | unexpectedElement line => "unexpected element at line " ++ toString line
  | unexpectedKey line => "unexpected key at line " ++ toString line
  | missingValue key line =>
    "missing value for key '" ++ String.ofList key ++ "' at line " ++ toString line
  | integer base text =>
    "invalid literal for int() with base " ++ toString base ++ ": " ++
      String.ofList ((Text.quoted text).take 200)
  | longInteger digits =>
    "Exceeds the limit (4300 digits) for integer string conversion: value has " ++
      toString digits ++ " digits; use sys.set_int_max_str_digits() to increase the limit"
  | real text => "could not convert string to float: " ++ shown text
  | base64 (.lonely characters) =>
    "Invalid base64-encoded string: number of data characters (" ++ toString characters ++
      ") cannot be 1 more than a multiple of 4"
  | base64 .padding => "Incorrect padding"
  | year value => "year " ++ toString value ++ " is out of range"
  | month => "month must be in 1..12"
  | day => "day is out of range for month"
  | hour => "hour must be in 0..23"
  | minute => "minute must be in 0..59"
  | second => "second must be in 0..59"
  | wideEncoding => "multi-byte encodings are not supported"
  | notDictionary => "top-level object is not a dict"

/-- The failure for a flaw: what the file does not let be read has a cause. -/
def Flaw.failure (flaw : Flaw) : Failure :=
  let cause := if flaw = .notDictionary then none else some (.outer flaw.message)
  .inner (.resource "Info.plist") flaw.message [] cause

/-- Why a property list cannot be changed. -/
inductive Problem where
  | flaw (flaw : Flaw)
  | breakdown (breakdown : Breakdown)
  deriving DecidableEq, Repr

def DateFlaw.problem : DateFlaw → Problem
  | .unreadable => .breakdown .unreadableDate
  | .incomplete => .breakdown .incompleteDate
  | .year value => .flaw (.year value)
  | .month => .flaw .month
  | .day => .flaw .day
  | .hour => .flaw .hour
  | .minute => .flaw .minute
  | .second => .flaw .second

end PropertyList

end BundleHook
