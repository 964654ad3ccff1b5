import BundleHook.Entry.Outcome
import BundleHook.Settings.Check

/-!
# Reports

What a run did with each file, and the messages about them.
-/

namespace BundleHook

/-- What happened to a file. -/
inductive FileState where
  | patched
  | unchanged
  | unrecognized
  | missing
  deriving DecidableEq, Repr

def FileState.label : FileState → String
  | patched => "patched"
  | unchanged => "unchanged"
  | unrecognized => "unrecognized"
  | missing => "missing"

/-- The report on a file. -/
structure FileReport where
  platform : Platform
  path : String
  status : FileState
  dialect : Option String
  written : Bool
  deriving DecidableEq, Repr

/-- The report of a run. -/
structure RunReport where
  success : Bool
  skipped : Bool
  files : List FileReport
  diagnostics : List Diagnostic
  deriving DecidableEq, Repr

namespace RunReport

def warnings (report : RunReport) : List Diagnostic := warningsOf report.diagnostics

def reportOn (report : RunReport) (path : String) : Option FileReport :=
  report.files.find? (·.path = path)

/-- The report of a run that has not done anything yet. -/
def initial : RunReport := ⟨true, false, [], []⟩

end RunReport

/-! ## Reports as data -/

def Platform.byLabel : List (String × Platform) :=
  [Platform.android, .ios].map fun platform => (platform.label, platform)

def FileState.byLabel : List (String × FileState) :=
  [FileState.patched, .unchanged, .unrecognized, .missing].map fun status => (status.label, status)

def Severity.label : Severity → String
  | info => "info"
  | warning => "warning"

def Severity.byLabel : List (String × Severity) :=
  [Severity.info, .warning].map fun severity => (severity.label, severity)

def Diagnostic.check : Check Diagnostic := Check.record fun fields =>
  Diagnostic.mk
    <$> Check.fieldOr .warning ["severity"] (Check.word .notAllowed Severity.byLabel) fields
    <*> Check.field "file_name" Check.text fields
    <*> Check.field "message" Check.text fields

def FileReport.check : Check FileReport := Check.record fun fields =>
  FileReport.mk
    <$> Check.field "platform" (Check.word .unknownCase Platform.byLabel) fields
    <*> Check.field "path" Check.text fields
    <*> Check.field "status" (Check.word .unknownCase FileState.byLabel) fields
    <*> Check.fieldOr none ["dialect"] (Check.orNull Check.text) fields
    <*> Check.fieldOr false ["written"] Check.flag fields

def RunReport.check : Check RunReport := Check.record fun fields =>
  RunReport.mk
    <$> Check.fieldOr true ["success"] Check.flag fields
    <*> Check.fieldOr false ["skipped"] Check.flag fields
    <*> Check.fieldOr [] ["files"] (Check.listOf FileReport.check) fields
    <*> Check.fieldOr [] ["diagnostics"] (Check.listOf Diagnostic.check) fields

end BundleHook
