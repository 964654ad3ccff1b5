import BundleHook.Service.CredentialWriting

/-!
# Patching the entry files

The entry file of a platform is read, patched, and written when it has changed. Files may also be
named one by one; then a file that cannot be used leaves the others alone.
-/

namespace BundleHook

def Outcome.status (outcome : Outcome) : FileState :=
  if outcome.alreadyPatched then .unchanged
  else if outcome.changed then .patched
  else .unrecognized

def Outcome.event (outcome : Outcome) : LogEvent :=
  ⟨.info, "Entry file processed",
    [("file", .text outcome.fileName), ("dialect", .text outcome.dialect.label),
     ("changed", .bool outcome.changed), ("already_patched", .bool outcome.alreadyPatched)]⟩

def Outcome.report (outcome : Outcome) (platform : Platform) (written : Bool) : FileReport :=
  ⟨platform, outcome.fileName, outcome.status, some outcome.dialect.label, written⟩

def entryHindered (key : String) (hindrance : Hindrance) : LogEvent :=
  ⟨.warning, "Could not access entry file",
    [("file", .text key), ("error", .text hindrance.message)]⟩

/-- The report on a file and the messages about it. -/
structure FileOutcome where
  report : Option FileReport
  diagnostics : List Diagnostic

namespace Project

def patchAt (project : Project) (platform : Platform) (key : String) :
    Work (FileReport × List Diagnostic) := do
  let text ← Work.askFiles (project.store.readAsText · key)
  let outcome := Outcome.ofEntry platform key text
  outcome.diagnostics.forM fun diagnostic => Work.tell diagnostic.event
  let change ← project.save outcome.changed (project.store.writeAsText · key outcome.contents)
  Work.tell outcome.event
  return (outcome.report platform change.written, outcome.diagnostics)

def entryResult (report : FileReport) (diagnostics : List Diagnostic) : FileResult :=
  match (warningsOf diagnostics).map Diagnostic.line with
  | [] => .ok report (.diagnostics diagnostics)
  | warnings => .okWith report warnings (.diagnostics diagnostics)

def patchPlatform (project : Project) (platform : Platform) : Work FileResult := do
  let place := Work.ask (Location.ofEntryFile project.store · platform)
  match ← place.caught Hindrance.isOfLayout with
  | .error hindrance =>
    Work.tell ⟨.warning, "Entry file not found",
      [("platform", .text platform.label), ("error", .text hindrance.message)]⟩
    return .fail hindrance.message (.platform platform)
  | .ok key =>
    match ← (project.patchAt platform key).caught Hindrance.isOfFile with
    | .error hindrance =>
      Work.tell (entryHindered key hindrance)
      return .fail hindrance.report (.path key)
    | .ok (report, diagnostics) => return entryResult report diagnostics

/-- Patches a file by its key; the ending of its name tells the platform. -/
def patchNamed (project : Project) (key : String) : Work FileOutcome := do
  match Platform.ofFileName key.toList with
  | none => return ⟨none, [⟨.warning, key, "Not a MainApplication or AppDelegate source"⟩]⟩
  | some platform =>
    match ← (project.patchAt platform key).caught Hindrance.isOfFile with
    | .error hindrance =>
      Work.tell (entryHindered key hindrance)
      return ⟨none, [⟨.warning, key, hindrance.report⟩]⟩
    | .ok (report, diagnostics) => return ⟨some report, diagnostics⟩

def locate (project : Project) (key : String) : Work Unit := do
  if (Platform.ofFileName key.toList).isSome then
    let _ ← Work.askFiles (project.store.pathOf · key)

/-- Patches some files, each on its own. All places are found before the first file is read, so that
a key without a place stops the work before any file is changed. -/
def patchAll (project : Project) (keys : List String) : Work (List FileOutcome) := do
  keys.forM project.locate
  keys.mapM project.patchNamed

end Project

end BundleHook
