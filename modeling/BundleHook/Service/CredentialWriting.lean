import BundleHook.PropertyList.Update
import BundleHook.Resource.StringTable
import BundleHook.Service.Work
import BundleHook.Settings.Credentials

/-!
# Writing credentials

The credentials go into the strings of the Android app and into the property list of the iOS app. A
file that cannot be read, written or understood is reported, and the work goes on.
-/

namespace BundleHook

def Hindrance.isOfFile : Hindrance → Bool
  | failure _ => true
  | store fault => fault.isOfFile
  | breakdown _ => false

/-- Is the hindrance a file that is not where it belongs? -/
def Hindrance.isOfLayout : Hindrance → Bool
  | failure _ => true
  | _ => false

def Hindrance.message : Hindrance → String
  | failure known => known.text
  | store fault => fault.message
  | breakdown cause => cause.message

def Hindrance.report : Hindrance → String
  | store fault => "Could not access file: " ++ fault.message
  | hindrance => hindrance.message

/-- A resource file that holds credentials. -/
structure Resource where
  platform : Platform
  name : String
  title : String

def Resource.stringTable : Resource := ⟨.android, "strings.xml", "Android"⟩

def Resource.propertyList : Resource := ⟨.ios, "Info.plist", "iOS"⟩

/-- The event of a resource that cannot be worked on. -/
def Resource.hindered (resource : Resource) (key : String) (hindrance : Hindrance) : LogEvent :=
  let start :=
    match hindrance with
    | .store _ => "Could not access "
    | _ => "Skipping "
  ⟨.warning, start ++ resource.name, [("file", .text key), ("error", .text hindrance.message)]⟩

/-- The outcome of work on a resource, told and as a result. -/
def Resource.conclude (resource : Resource) (key : String) (work : Work Change) :
    Work FileResult := do
  match ← work.caught Hindrance.isOfFile with
  | .error hindrance =>
    Work.tell (resource.hindered key hindrance)
    return .fail hindrance.report (.path key)
  | .ok change =>
    Work.tell ⟨.info, resource.title ++ " credentials applied",
      [("file", .text key), ("changed", .bool change.changed)]⟩
    let status : FileState := if change.changed then .patched else .unchanged
    return .ok ⟨resource.platform, key, status, none, change.written⟩ .none

namespace Project

def updatedStrings (current : Text) (credentials : Credentials) : Except Hindrance Text :=
  (StringTable.upsert current credentials.items).mapError fun flaw =>
    .failure (flaw.failure current)

def updatedProperties (current : Contents) (credentials : Credentials) :
    Except Hindrance Contents :=
  (PropertyList.upsert current credentials.items).mapError fun
    | .flaw flaw => .failure flaw.failure
    | .breakdown breakdown => .breakdown breakdown

/-- The table of strings that is there, or an empty text. -/
def currentStrings (project : Project) (key : String) : Work Text := do
  if ← Work.askFiles (project.store.has · key) then Work.askFiles (project.store.readAsText · key)
  else return []

def updateStringTable (project : Project) (credentials : Credentials) : Work FileResult :=
  let key := Location.stringTableKey
  Resource.stringTable.conclude key do
    let current ← project.currentStrings key
    let updated ← Work.ask fun _ => updatedStrings current credentials
    project.save (updated ≠ current) (project.store.writeAsText · key updated)

def updatePropertyList (project : Project) (credentials : Credentials) : Work FileResult := do
  match ← (Work.ask (Location.ofPropertyList project.store)).caught Hindrance.isOfLayout with
  | .error hindrance =>
    Work.tell ⟨.warning, "Skipping Info.plist", [("error", .text hindrance.message)]⟩
    return .fail hindrance.message .none
  | .ok key =>
    Resource.propertyList.conclude key do
      let current ← Work.askFiles (project.store.read · key)
      let updated ← Work.ask fun _ => updatedProperties current credentials
      project.save (updated ≠ current) (project.store.write · key updated)

def updateResource (project : Project) (credentials : Credentials) :
    Platform → Work FileResult
  | .android => project.updateStringTable credentials
  | .ios => project.updatePropertyList credentials

end Project

end BundleHook
