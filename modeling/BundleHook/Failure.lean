import BundleHook.Settings.Datum

/-!
# Failures

A failure has a message, and may carry a context and the failure that caused it. Its kind adds what
the message is about.
-/

namespace BundleHook

/-- What a failure is about. -/
inductive FailureKind where
  | general
  | configuration (field : Option String)
  /-- A file of the native project that is not where it belongs. -/
  | layout (platform expected : String)
  | resource (name : String)
  deriving DecidableEq, Repr

/-- A failure. -/
inductive Failure where
  /-- A failure outside this library, known by its text. -/
  | outer (text : String)
  | inner (kind : FailureKind) (message : String) (context : List (String × Datum))
      (cause : Option Failure)
  deriving Repr, Inhabited

namespace Failure

/-- The failure of one kind with nothing but a message. -/
def ofMessage (kind : FailureKind) (message : String) : Failure := inner kind message [] none

mutual

def text : Failure → String
  | outer text => text
  | inner kind message context cause =>
    let told := message ++
      (if context.isEmpty then "" else " | context: " ++ (Datum.record context).inline) ++
      causeText cause
    match kind with
    | .general => told
    | .configuration field =>
      match field with
      | some field =>
        if field.isEmpty then "expo-stallion: " ++ told
        else "expo-stallion: invalid '" ++ field ++ "': " ++ told
      | none => "expo-stallion: " ++ told
    | .layout platform expected =>
      "[" ++ platform ++ "] " ++ message ++
        (if expected.isEmpty then "" else " (expected " ++ expected ++ ")")
    | .resource name => "Could not parse " ++ name ++ ": " ++ told

def causeText : Option Failure → String
  | none => ""
  | some cause => " | caused by: " ++ text cause

end

end Failure

end BundleHook
