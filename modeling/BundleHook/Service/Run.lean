import BundleHook.Service.EntryPatching

/-!
# Runs

A run writes the credentials and patches the entry file, for Android and then for iOS. Credentials
that are not given end it at once, and a malformed token makes it fail before any file is touched.
All that happens to a single file afterwards goes into the report.
-/

namespace BundleHook

def ownName : String := "expo-stallion"

def credentialsNeeded : String :=
  "projectId and appToken are required; skipping Stallion setup."

def RunReport.ofSkipped : RunReport :=
  ⟨true, true, [], [⟨.warning, ownName, credentialsNeeded⟩]⟩

/-- The report with the result of a service; a file without a key goes by its name. -/
def RunReport.add (report : RunReport) (platform : Platform) (name : String)
    (result : FileResult) : RunReport :=
  if result.success then
    let diagnostics :=
      match result.metadata with
      | .diagnostics diagnostics => diagnostics
      | _ => []
    { report with
      files := report.files ++ result.data.toList
      diagnostics := report.diagnostics ++ diagnostics }
  else
    let (path, status) : String × FileState :=
      match result.metadata with
      | .path key => (key, .unrecognized)
      | _ => (name, .missing)
    { report with
      files := report.files ++ [⟨platform, path, status, none, false⟩]
      diagnostics := report.diagnostics ++ [⟨.warning, path, result.error.getD ""⟩] }

def Platform.resourceName : Platform → String
  | android => Resource.stringTable.name
  | ios => Resource.propertyList.name

def Project.servePlatform (project : Project) (credentials : Credentials) (platform : Platform)
    (report : RunReport) : Work RunReport := do
  let resource ← project.updateResource credentials platform
  let entry ← project.patchPlatform platform
  return (report.add platform platform.resourceName resource).add
    platform platform.entryName entry

/-- The platforms of a run, in order. -/
def PatchSettings.platforms (config : PatchSettings) : List Platform :=
  (if config.androidEnabled then [.android] else []) ++ (if config.iosEnabled then [.ios] else [])

/-- Goes through the platforms, with an event before and one after them. -/
def Project.servePlatforms (project : Project) (credentials : Credentials)
    (config : PatchSettings) : Work RunReport := do
  Work.tell ⟨.info, "Applying Stallion plugin", [("dry_run", .bool config.dryRun)]⟩
  let report ← config.platforms.foldlM
    (fun report platform => project.servePlatform credentials platform report) .initial
  Work.tell ⟨.info, "Stallion plugin applied",
    [("files", .integer report.files.length), ("warnings", .integer report.warnings.length)]⟩
  return report

def runOver (root : Path) (credentials : Credentials) (config : PatchSettings) :
    Work RunReport := do
  if !credentials.areGiven then
    Work.tell ⟨.warning, credentialsNeeded, []⟩
    return .ofSkipped
  match credentials.failure? with
  | some failure => throw (.failure failure)
  | none =>
    let store ← Work.askFiles (Store.ofProject · root)
    Work.inContext [("project_root", .text (String.ofList root.text))]
      ((Project.mk store config.dryRun).servePlatforms credentials config)

end BundleHook
