import BundleHook.Proofs.Service.Duty
import BundleHook.Proofs.Store.Fault
import BundleHook.Proofs.Store.Key
import Mathlib

/-!
# What ends a run early

A fault of a single file is excused, and a file that is not found is reported. What ends a run are
the faults of places, met as a pattern is tried or a key gets its path, and the breakdowns of a
property list.

* `Duty.Passable` — a duty meets none of them;
* `run_succeeds_iff` — a run with good credentials succeeds exactly when the root has a path and all
  its duties are passable, each in the tree that those before it have left.
-/

namespace BundleHook

/-- A file is not found, or it has a key with a path. -/
def Store.IsClear (store : Store) (t : Tree) (place : Except Hindrance String) : Prop :=
  (∃ failure, place = .error (.failure failure)) ∨
    ∃ key p, place = .ok key ∧ store.pathOf t key = .ok p

theorem Store.isClear_error_iff {store : Store} {t : Tree} {hindrance : Hindrance} :
    store.IsClear t (.error hindrance) ↔ hindrance.isOfLayout = true := by
  cases hindrance <;> simp [IsClear, Hindrance.isOfLayout]

theorem Store.isClear_ok_iff {store : Store} {t : Tree} {key : String} :
    store.IsClear t (.ok key) ↔ ∃ p, store.pathOf t key = .ok p := by
  simp [IsClear]

namespace Duty

/-- Neither the place of the file nor what it shall hold ends the run. -/
structure Passable (store : Store) (t : Tree) (duty : Duty) : Prop where
  place : store.IsClear t (duty.place t)
  revision : ∀ key breakdown, duty.place t = .ok key →
    duty.revise t key ≠ .error (.breakdown breakdown)

/-- Revising meets the fault of a key without a path, and besides only faults of the file and
breakdowns. -/
structure Regular (store : Store) (duty : Duty) : Prop where
  blocked : ∀ t key fault, store.pathOf t key = .error fault →
    duty.revise t key = .error (.store fault)
  hindered : ∀ t key p hindrance, store.pathOf t key = .ok p →
    duty.revise t key = .error hindrance →
      hindrance.isOfFile = true ∨ ∃ breakdown, hindrance = .breakdown breakdown

end Duty

namespace Project

/-- All duties are passable, each where those before it have left the tree. -/
def AllPassable (project : Project) : List Duty → Tree → Prop
  | [], _ => True
  | duty :: duties, t =>
    duty.Passable project.store t ∧ project.AllPassable duties (project.perform duty t).2

/-! ## One duty -/

variable {project : Project} {t : Tree} {key : String}

theorem isOfFile_of_carryOut {p : Path} (hpath : project.store.pathOf t key = .ok p)
    {news : Option Contents} {hindrance : Hindrance} {after : Tree}
    (h : project.carryOut t key news = (.error hindrance, after)) : hindrance.isOfFile = true := by
  rcases carryOut_cases h with
    ⟨_, hchange, -⟩ | ⟨contents, -, -, ⟨fault, hwrite, hchange⟩ | ⟨-, hchange⟩⟩
  · cases hchange
  · obtain rfl := Except.error.inj hchange
    exact Store.isOfFile_of_write hpath hwrite
  · cases hchange

/-- What saving a file with a path meets is excused. -/
theorem excused_carryOut {p : Path} (hpath : project.store.pathOf t key = .ok p)
    (news : Option Contents) (answer : Change → FileResult) :
    ∃ result, excused key ((project.carryOut t key news).1.map answer) = .ok result := by
  rcases hsaved : project.carryOut t key news with ⟨hindrance | change, after⟩
  · have hfile := isOfFile_of_carryOut hpath hsaved
    exact ⟨_, if_pos hfile⟩
  · exact ⟨_, rfl⟩

theorem excused_error_iff {hindrance : Hindrance} :
    (∃ result, excused key (.error hindrance) = .ok result) ↔ hindrance.isOfFile = true := by
  unfold excused
  by_cases hfile : hindrance.isOfFile = true <;> simp [hfile]

/-- A duty can be done exactly when it is passable. -/
theorem perform_ok_iff {duty : Duty} (hregular : duty.Regular project.store) :
    (∃ result, (project.perform duty t).1 = .ok result) ↔ duty.Passable project.store t := by
  unfold perform
  rcases hplace : duty.place t with hindrance | key
  · have hpassable : duty.Passable project.store t ↔ hindrance.isOfLayout = true := by
      rw [← @Store.isClear_error_iff project.store t, ← hplace]
      refine ⟨Duty.Passable.place, fun hclear => ⟨hclear, fun key breakdown hkey => ?_⟩⟩
      rw [hplace] at hkey
      cases hkey
    rw [hpassable]
    by_cases hlayout : hindrance.isOfLayout = true <;> simp [hlayout]
  show (∃ result, (project.settle t key (duty.revise t key)).1 = .ok result) ↔ _
  -- A key without a path stops whatever would be done with the file.
  rcases hpath : project.store.pathOf t key with fault | p
  · have hblocked : ¬duty.Passable project.store t := by
      intro hpassable
      obtain ⟨p, hp⟩ := Store.isClear_ok_iff.1 (hplace ▸ hpassable.place)
      rw [hpath] at hp
      cases hp
    simp only [hregular.blocked t key fault hpath, settle, excused_error_iff, hblocked]
    simp [Hindrance.isOfFile, Store.isOfFile_of_pathOf hpath]
  have hclear : project.store.IsClear t (duty.place t) :=
    hplace ▸ Store.isClear_ok_iff.2 ⟨p, hpath⟩
  have hpassable : duty.Passable project.store t ↔
      ∀ breakdown, duty.revise t key ≠ .error (.breakdown breakdown) := by
    refine ⟨fun h breakdown => h.revision key breakdown hplace, fun h => ⟨hclear, ?_⟩⟩
    intro key' breakdown hkey'
    rw [hplace] at hkey'
    obtain rfl := Except.ok.inj hkey'
    exact h breakdown
  rw [hpassable]
  rcases hrevision : duty.revise t key with hindrance | revision
  · simp only [settle, excused_error_iff]
    rcases hregular.hindered t key p hindrance hpath hrevision with hfile | ⟨breakdown, rfl⟩
    · refine ⟨fun _ breakdown heq => ?_, fun _ => hfile⟩
      obtain rfl := Except.error.inj heq
      cases hfile
    · simp [Hindrance.isOfFile]
  · simp only [settle]
    refine ⟨fun _ breakdown => by simp, fun _ => ?_⟩
    exact excused_carryOut hpath revision.contents revision.answer

/-! ## All duties -/

theorem success_add (report : RunReport) (platform : Platform) (name : String)
    (result : FileResult) : (report.add platform name result).success = report.success := by
  unfold RunReport.add
  split <;> rfl

theorem performAll_ok_iff {duties : List Duty} (report : RunReport)
    (hregular : ∀ duty ∈ duties, duty.Regular project.store) :
    (∃ last, (project.performAll duties t report).1 = .ok last ∧ last.success = report.success) ↔
      project.AllPassable duties t := by
  induction duties generalizing t report with
  | nil => simp [performAll, AllPassable]
  | cons duty duties ih =>
      have hduty := perform_ok_iff (t := t) (hregular duty List.mem_cons_self)
      simp only [performAll, AllPassable, ← hduty]
      rcases hdone : project.perform duty t with ⟨hindrance | result, after⟩
      · simp
      · have hlater := ih (t := after) (report.add duty.platform duty.name result)
          fun later hmem => hregular later (List.mem_cons_of_mem duty hmem)
        rw [success_add] at hlater
        simp [hlater]

end Project

/-! ## The duties of a run -/

namespace Duty

variable {store : Store} {credentials : Credentials}

/-- Revising a resource stops where it is read or where it is updated. -/
theorem error_reviseResource {α : Type} [DecidableEq α] {resource : Resource} {key : String}
    {read : Except StoreFault α} {update : α → Except Hindrance α} {octets : α → Contents}
    {hindrance : Hindrance}
    (h : reviseResource resource key read update octets = .error hindrance) :
    (∃ fault, read = .error fault ∧ hindrance = .store fault) ∨
      ∃ current, read = .ok current ∧ update current = .error hindrance := by
  unfold reviseResource at h
  rcases read with fault | current
  · exact .inl ⟨fault, rfl, (Except.error.inj h).symm⟩
  · refine .inr ⟨current, rfl, ?_⟩
    rcases hupdated : update current with hindrance' | updated
    · simp only [Except.mapError, bind, Except.bind, hupdated] at h
      exact congrArg Except.error (Except.error.inj h)
    · simp only [Except.mapError, bind, Except.bind, hupdated] at h
      cases h

theorem isOfFile_of_updatedStrings {current : Text} {hindrance : Hindrance}
    (h : Project.updatedStrings current credentials = .error hindrance) :
    hindrance.isOfFile = true := by
  unfold Project.updatedStrings at h
  rcases hupdated : StringTable.upsert current credentials.items with flaw | updated
  · rw [hupdated] at h
    obtain rfl := Except.error.inj h
    rfl
  · rw [hupdated] at h
    cases h

theorem error_updatedProperties {current : Contents} {hindrance : Hindrance}
    (h : Project.updatedProperties current credentials = .error hindrance) :
    hindrance.isOfFile = true ∨ ∃ breakdown, hindrance = .breakdown breakdown ∧
      PropertyList.upsert current credentials.items = .error (.breakdown breakdown) := by
  unfold Project.updatedProperties at h
  rcases hupdated : PropertyList.upsert current credentials.items with problem | updated
  · rw [hupdated] at h
    obtain rfl := Except.error.inj h
    cases problem with
    | flaw flaw => exact .inl rfl
    | breakdown breakdown => exact .inr ⟨breakdown, rfl, rfl⟩
  · rw [hupdated] at h
    cases h

theorem textOrNothing_of_pathOf_error {t : Tree} {key : String} {fault : StoreFault}
    (h : store.pathOf t key = .error fault) : store.textOrNothing t key = .error fault := by
  unfold Store.textOrNothing
  rw [Store.has_of_pathOf_error h]
  rfl

theorem isOfFile_of_textOrNothing {t : Tree} {key : String} {p : Path} {fault : StoreFault}
    (hpath : store.pathOf t key = .ok p) (h : store.textOrNothing t key = .error fault) :
    fault.isOfFile = true := by
  unfold Store.textOrNothing at h
  rcases hhas : store.has t key with fault' | there
  · rw [hhas] at h
    obtain rfl := Except.error.inj h
    exact Store.isOfFile_of_has hpath hhas
  · rw [hhas] at h
    cases there with
    | true => exact Store.isOfFile_of_readAsText hpath h
    | false => cases h

theorem isOfFile_of_reviseStrings {t : Tree} {key : String} {p : Path} {hindrance : Hindrance}
    (hpath : store.pathOf t key = .ok p)
    (h : reviseStrings store credentials t key = .error hindrance) : hindrance.isOfFile = true := by
  rcases error_reviseResource h with ⟨fault, hread, rfl⟩ | ⟨current, -, hupdate⟩
  · exact isOfFile_of_textOrNothing hpath hread
  · exact isOfFile_of_updatedStrings hupdate

theorem error_reviseProperties {t : Tree} {key : String} {p : Path} {hindrance : Hindrance}
    (hpath : store.pathOf t key = .ok p)
    (h : reviseProperties store credentials t key = .error hindrance) :
    hindrance.isOfFile = true ∨ ∃ octets breakdown, hindrance = .breakdown breakdown ∧
      store.read t key = .ok octets ∧
      PropertyList.upsert octets credentials.items = .error (.breakdown breakdown) := by
  rcases error_reviseResource h with ⟨fault, hread, rfl⟩ | ⟨octets, hread, hupdate⟩
  · exact .inl (Store.isOfFile_of_read hpath hread)
  · rcases error_updatedProperties hupdate with hfile | ⟨breakdown, heq, hupsert⟩
    · exact .inl hfile
    · exact .inr ⟨octets, breakdown, heq, hread, hupsert⟩

theorem reviseProperties_of_breakdown {t : Tree} {key : String} {octets : Contents}
    {breakdown : Breakdown} (hread : store.read t key = .ok octets)
    (hupsert : PropertyList.upsert octets credentials.items = .error (.breakdown breakdown)) :
    reviseProperties store credentials t key = .error (.breakdown breakdown) := by
  unfold reviseProperties reviseResource Project.updatedProperties
  rw [hread]
  simp only [Except.mapError, bind, Except.bind, hupsert]

theorem regular_ofResource (platform : Platform) :
    (ofResource store credentials platform).Regular store := by
  cases platform with
  | android =>
      refine ⟨fun t key fault h => ?_, fun t key p hindrance hpath h => ?_⟩
      · simp only [ofResource, reviseStrings, textOrNothing_of_pathOf_error h]
        rfl
      · exact .inl (isOfFile_of_reviseStrings hpath h)
  | ios =>
      refine ⟨fun t key fault h => ?_, fun t key p hindrance hpath h => ?_⟩
      · simp only [ofResource, reviseProperties, Store.read_of_pathOf_error h]
        rfl
      · rcases error_reviseProperties hpath h with hfile | ⟨octets, breakdown, heq, -, -⟩
        · exact .inl hfile
        · exact .inr ⟨breakdown, heq⟩

/-- A property list that breaks down stands in the way of its duty. -/
theorem perform_of_breakdown {project : Project} {t : Tree} {key : String} {octets : Contents}
    {breakdown : Breakdown} (hplace : Location.ofPropertyList project.store t = .ok key)
    (hread : project.store.read t key = .ok octets)
    (hupsert : PropertyList.upsert octets credentials.items = .error (.breakdown breakdown)) :
    project.perform (ofResource project.store credentials .ios) t =
      (.error (.breakdown breakdown), t) := by
  have hrevise := reviseProperties_of_breakdown hread hupsert
  simp only [Project.perform, ofResource, hplace, hrevise, Project.settle, Project.excused,
    Hindrance.isOfFile]
  rfl

theorem regular_ofEntry (platform : Platform) : (ofEntry store platform).Regular store := by
  refine ⟨fun t key fault h => reviseEntry_of_fault (Store.readAsText_of_pathOf_error h), ?_⟩
  intro t key p hindrance hpath h
  simp only [ofEntry] at h
  rcases htext : store.readAsText t key with fault | text
  · rw [reviseEntry_of_fault htext] at h
    obtain rfl := Except.error.inj h
    exact .inl (Store.isOfFile_of_readAsText hpath htext)
  · rw [reviseEntry_of_text htext] at h
    cases h

theorem regular_of_mem_all {config : PatchSettings} {duty : Duty}
    (h : duty ∈ all store credentials config) : duty.Regular store := by
  obtain ⟨platform, -, hduty⟩ := List.mem_flatMap.1 h
  rcases List.mem_cons.1 hduty with rfl | hentry
  · exact regular_ofResource platform
  · obtain rfl := List.mem_singleton.1 hentry
    exact regular_ofEntry platform

/-! ### Passable duties

Only the property list can break down. Of the other files it is enough that they have a place. -/

theorem passable_stringTable_iff {t : Tree} :
    (ofResource store credentials .android).Passable store t ↔
      ∃ p, store.pathOf t Location.stringTableKey = .ok p := by
  constructor
  · intro h
    exact Store.isClear_ok_iff.1 h.place
  · rintro ⟨p, hpath⟩
    refine ⟨Store.isClear_ok_iff.2 ⟨p, hpath⟩, fun key breakdown hplace hrevise => ?_⟩
    obtain rfl := Except.ok.inj hplace
    cases isOfFile_of_reviseStrings hpath hrevise

theorem passable_propertyList_iff {t : Tree} :
    (ofResource store credentials .ios).Passable store t ↔
      store.IsClear t (Location.ofPropertyList store t) ∧
        ∀ key octets breakdown, Location.ofPropertyList store t = .ok key →
          store.read t key = .ok octets →
          PropertyList.upsert octets credentials.items ≠ .error (.breakdown breakdown) := by
  constructor
  · intro h
    refine ⟨h.place, fun key octets breakdown hplace hread hupsert => ?_⟩
    exact h.revision key breakdown hplace (reviseProperties_of_breakdown hread hupsert)
  · rintro ⟨hclear, hupsert⟩
    refine ⟨hclear, fun key breakdown hplace hrevise => ?_⟩
    replace hplace : Location.ofPropertyList store t = .ok key := hplace
    rw [hplace] at hclear
    obtain ⟨p, hpath⟩ := Store.isClear_ok_iff.1 hclear
    rcases error_reviseProperties hpath hrevise with hfile | ⟨octets, broken, heq, hread, hbroken⟩
    · cases hfile
    · obtain rfl := Hindrance.breakdown.inj heq
      exact hupsert key octets _ hplace hread hbroken

theorem passable_ofEntry_iff {platform : Platform} {t : Tree} :
    (ofEntry store platform).Passable store t ↔
      store.IsClear t (Location.ofEntryFile store t platform) := by
  refine ⟨Passable.place, fun hclear => ⟨hclear, fun key breakdown _ hrevise => ?_⟩⟩
  simp only [ofEntry] at hrevise
  rcases htext : store.readAsText t key with fault | text
  · rw [reviseEntry_of_fault htext] at hrevise
    cases hrevise
  · rw [reviseEntry_of_text htext] at hrevise
    cases hrevise

end Duty

/-! ## Runs -/

section Runs

variable {root : Path} {credentials : Credentials} (config : PatchSettings)

theorem run_without_root {t : Tree} {fault : StoreFault} (hgiven : credentials.areGiven = true)
    (hgood : credentials.failure? = none) (hstore : Store.ofProject t root = .error fault) :
    (runOver root credentials config).Ends t (.error (.store fault)) t := by
  have hask := Work.ends_askFiles (Store.ofProject · root) t
  simp only [hstore] at hask
  unfold runOver
  simp only [hgiven, hgood]
  exact hask.bind_error

/-- With good credentials, nothing but the places of files and broken property lists ends a run. -/
theorem run_succeeds_iff (hgiven : credentials.areGiven = true)
    (hgood : credentials.failure? = none) (world : World) :
    (∃ report after, (runOver root credentials config).run world = (.ok report, after) ∧
        report.success = true) ↔
      ∃ store, Store.ofProject world.tree root = .ok store ∧
        (Project.mk store config.dryRun).AllPassable (Duty.all store credentials config)
          world.tree := by
  obtain ⟨t, told⟩ := world
  rcases hstore : Store.ofProject t root with fault | store
  · obtain ⟨hresult, -⟩ := (run_without_root config hgiven hgood hstore).run told
    constructor
    · rintro ⟨report, after, hrun, -⟩
      rw [hrun] at hresult
      cases hresult
    · rintro ⟨store, hfound, -⟩
      cases hfound
  obtain ⟨hresult, -⟩ := (ends_runOver config hgiven hgood hstore).run told
  have hregular (duty : Duty) (hmem : duty ∈ Duty.all store credentials config) :
      duty.Regular store := Duty.regular_of_mem_all hmem
  have hall := (Project.mk store config.dryRun).performAll_ok_iff (t := t) .initial hregular
  rw [← hresult] at hall
  constructor
  · rintro ⟨report, after, hrun, hsuccess⟩
    exact ⟨store, rfl, hall.1 ⟨report, congrArg Prod.fst hrun, hsuccess⟩⟩
  · rintro ⟨store', hfound, hpassable⟩
    obtain rfl := Except.ok.inj hfound
    obtain ⟨report, hreport, hsuccess⟩ := hall.2 hpassable
    exact ⟨report, _, Prod.ext hreport rfl, hsuccess⟩

/-- A project without files. -/
def emptyProject : Tree := ⟨[(⟨["project".toList]⟩, .directory)]⟩

def someCredentials : Credentials := ⟨some "p", some "spb_t"⟩

theorem run_succeeds_emptyProject :
    someCredentials.areGiven = true ∧ someCredentials.failure? = none ∧
      ∃ report after, (runOver ⟨["project".toList]⟩ someCredentials ⟨true, true, true⟩).run
        ⟨emptyProject, []⟩ = (.ok report, after) ∧ report.success = true := by
  let store : Store := ⟨⟨["project".toList]⟩⟩
  have hstore : Store.ofProject emptyProject ⟨["project".toList]⟩ = .ok store := by cbv
  let p : Path := store.meantPath Location.stringTableKey
  have hresolved : emptyProject.resolve p = .ok p := by cbv
  have hpath : store.pathOf emptyProject Location.stringTableKey = .ok p := by
    rw [Store.pathOf_eq (by decide), hresolved]
    exact if_pos (by decide)
  have hmain : ∃ failure, Location.ofMainApplication store emptyProject =
      .error (.failure failure) := ⟨_, by cbv⟩
  have hdelegate : ∃ failure, Location.ofAppDelegate store emptyProject =
      .error (.failure failure) := ⟨_, by cbv⟩
  have hproperties : ∃ failure, Location.ofPropertyList store emptyProject =
      .error (.failure failure) := ⟨_, by cbv⟩
  have hgiven : someCredentials.areGiven = true := by decide
  have hgood : someCredentials.failure? = none := by decide
  refine ⟨hgiven, hgood, (run_succeeds_iff ⟨true, true, true⟩ hgiven hgood _).2
    ⟨store, hstore, ?_⟩⟩
  show Project.AllPassable _ [_, _, _, _] emptyProject
  simp only [Project.AllPassable, Project.perform_of_dryRun]
  refine ⟨Duty.passable_stringTable_iff.2 ⟨p, hpath⟩, Duty.passable_ofEntry_iff.2 (.inl hmain),
    Duty.passable_propertyList_iff.2 ⟨.inl hproperties, ?_⟩,
    Duty.passable_ofEntry_iff.2 (.inl hdelegate), trivial⟩
  intro key octets breakdown hkey
  obtain ⟨failure, hfailure⟩ := hproperties
  rw [hfailure] at hkey
  cases hkey

/-! ### A property list that ends a run -/

/-- An iOS project with one file, a property list. -/
def projectWithPropertyList (octets : Contents) : Tree :=
  ⟨[(⟨["project".toList]⟩, .directory), (⟨["project".toList, "ios".toList]⟩, .directory),
    (⟨["project".toList, "ios".toList, "App".toList]⟩, .directory),
    (⟨["project".toList, "ios".toList, "App".toList, "Info.plist".toList]⟩, .file octets)]⟩

/-- A property list with a key outside all dictionaries. -/
def strayKey : Contents := Utf8.encode "<plist><key>a</key></plist>".toList

private theorem root_projectWithPropertyList (octets : Contents) :
    Store.ofProject (projectWithPropertyList octets) ⟨["project".toList]⟩ =
      .ok ⟨⟨["project".toList]⟩⟩ := by cbv

private theorem place_projectWithPropertyList (octets : Contents) :
    Location.ofPropertyList ⟨⟨["project".toList]⟩⟩ (projectWithPropertyList octets) =
      .ok "ios/App/Info.plist" := by cbv

private theorem read_projectWithPropertyList (octets : Contents) :
    Store.read ⟨⟨["project".toList]⟩⟩ (projectWithPropertyList octets) "ios/App/Info.plist" =
      .ok octets := by
  let p : Path := ⟨["project".toList, "ios".toList, "App".toList, "Info.plist".toList]⟩
  have hmeant : Store.meantPath ⟨⟨["project".toList]⟩⟩ "ios/App/Info.plist" = p := by decide
  have hresolved : (projectWithPropertyList octets).resolve p = .ok p := by cbv
  have hlook : (projectWithPropertyList octets).look p = .ok (.file p octets) := by cbv
  have hpath : Store.pathOf ⟨⟨["project".toList]⟩⟩ (projectWithPropertyList octets)
      "ios/App/Info.plist" = .ok p := by
    rw [Store.pathOf_eq (by decide), hmeant, hresolved]
    exact if_pos (by decide)
  rw [Store.read_of_pathOf hpath, hlook]

private theorem isStray_iff {result : Except PropertyList.Problem Contents} :
    (match result with
      | .error (.breakdown .outsideContainer) => true
      | _ => false) = true ↔ result = .error (.breakdown .outsideContainer) := by
  constructor
  · intro h
    split at h
    · rfl
    · cases h
  · rintro rfl
    rfl

set_option maxRecDepth 4000 in
private theorem upsert_strayKey :
    PropertyList.upsert strayKey someCredentials.items = .error (.breakdown .outsideContainer) :=
  isStray_iff.1 (by decide +kernel)

private theorem perform_strayKey :
    (Project.mk ⟨⟨["project".toList]⟩⟩ false).perform
        (Duty.ofResource ⟨⟨["project".toList]⟩⟩ someCredentials .ios)
        (projectWithPropertyList strayKey) =
      (.error (.breakdown .outsideContainer), projectWithPropertyList strayKey) :=
  Duty.perform_of_breakdown (place_projectWithPropertyList strayKey)
    (read_projectWithPropertyList strayKey) upsert_strayKey

/-- The key outside all dictionaries ends the run; the entry file is not reached. -/
theorem run_hindered_by_strayKey :
    ((runOver ⟨["project".toList]⟩ someCredentials ⟨false, true, false⟩).run
      ⟨projectWithPropertyList strayKey, []⟩).1 = .error (.breakdown .outsideContainer) := by
  have hgiven : someCredentials.areGiven = true := by decide
  have hgood : someCredentials.failure? = none := by decide
  have hends := ends_runOver ⟨false, true, false⟩ hgiven hgood
    (root_projectWithPropertyList strayKey)
  rw [(hends.run []).1]
  show (Project.performAll _
    [Duty.ofResource _ someCredentials .ios, Duty.ofEntry _ .ios] _ _).1 = _
  rw [Project.performAll, perform_strayKey]

end Runs

end BundleHook
