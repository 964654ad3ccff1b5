import BundleHook.Proofs.Outcome
import BundleHook.Proofs.Service.Work
import BundleHook.Service.Run

/-!
# The duties of a run

A run does the same with each of its files: it finds the file, works out what the file shall hold,
and writes that unless nothing is new or files are only looked at. The files differ in a `Duty`.
`Project.perform` is what happens to the tree and to the report, with nothing told about it, and
`ends_runOver` says that a run ends as its duties do.
-/

namespace BundleHook

/-- The new contents of a file, if it gets any, and what is answered once they are saved. -/
structure Revision where
  contents : Option Contents
  answer : Change → FileResult

/-- A file that a run works on. -/
structure Duty where
  platform : Platform
  /-- What the file is called as long as it is not found. -/
  name : String
  /-- What is said about a file that is not found. -/
  lost : Detail
  place : Tree → Except Hindrance String
  revise : Tree → String → Except Hindrance Revision

namespace Project

variable (project : Project)

/-- What saving comes to. -/
def carryOut (t : Tree) (key : String) : Option Contents → Except Hindrance Change × Tree
  | none => (.ok ⟨false, false⟩, t)
  | some contents =>
    if project.dryRun then (.ok ⟨true, false⟩, t)
    else
      match project.store.write t key contents with
      | (some fault, after) => (.error (.store fault), after)
      | (none, after) => (.ok ⟨true, true⟩, after)

/-- A hindrance of the file at a key becomes an answer. -/
def excused (key : String) : Except Hindrance FileResult → Except Hindrance FileResult
  | .ok result => .ok result
  | .error hindrance =>
    if hindrance.isOfFile then .ok (.fail hindrance.report (.path key)) else .error hindrance

/-- What a revision of the file at a key comes to. -/
def settle (t : Tree) (key : String) :
    Except Hindrance Revision → Except Hindrance FileResult × Tree
  | .error hindrance => (excused key (.error hindrance), t)
  | .ok revision =>
    let (change, after) := project.carryOut t key revision.contents
    (excused key (change.map revision.answer), after)

/-- What doing a duty comes to. -/
def perform (duty : Duty) (t : Tree) : Except Hindrance FileResult × Tree :=
  match duty.place t with
  | .error hindrance =>
    (if hindrance.isOfLayout then .ok (.fail hindrance.message duty.lost) else .error hindrance, t)
  | .ok key => project.settle t key (duty.revise t key)

/-- What doing duties one after the other comes to. -/
def performAll : List Duty → Tree → RunReport → Except Hindrance RunReport × Tree
  | [], t, report => (.ok report, t)
  | duty :: duties, t, report =>
    match project.perform duty t with
    | (.error hindrance, after) => (.error hindrance, after)
    | (.ok result, after) => performAll duties after (report.add duty.platform duty.name result)

/-- The project comes to the tree `before` of a duty by doing the duties ahead of it. -/
inductive Reaches (project : Project) : List Duty → Tree → Duty → Tree → Prop where
  | first (duty : Duty) (duties : List Duty) (t : Tree) :
      Reaches project (duty :: duties) t duty t
  | later {other duty : Duty} {duties : List Duty} {t between before : Tree} {result : FileResult}
      (performs : project.perform other t = (.ok result, between))
      (reaches : Reaches project duties between duty before) :
      Reaches project (other :: duties) t duty before

variable {project}

/-- Saving leaves the tree, or it is a write. -/
theorem carryOut_cases {t after : Tree} {key : String} {news : Option Contents}
    {change : Except Hindrance Change} (h : project.carryOut t key news = (change, after)) :
    (∃ done, change = .ok done ∧ done.written = false ∧ after = t) ∨
      ∃ contents, news = some contents ∧ project.dryRun = false ∧
        ((∃ fault, project.store.write t key contents = (some fault, after) ∧
            change = .error (.store fault)) ∨
          (project.store.write t key contents = (none, after) ∧ change = .ok ⟨true, true⟩)) := by
  unfold carryOut at h
  split at h
  · obtain ⟨rfl, rfl⟩ := Prod.mk.inj h
    exact .inl ⟨_, rfl, rfl, rfl⟩
  · next contents =>
    split at h
    · obtain ⟨rfl, rfl⟩ := Prod.mk.inj h
      exact .inl ⟨_, rfl, rfl, rfl⟩
    · next hreal =>
      refine .inr ⟨contents, rfl, Bool.eq_false_iff.2 hreal, ?_⟩
      split at h
      · next fault made hwrite =>
        obtain ⟨rfl, rfl⟩ := Prod.mk.inj h
        exact .inl ⟨fault, hwrite, rfl⟩
      · next made hwrite =>
        obtain ⟨rfl, rfl⟩ := Prod.mk.inj h
        exact .inr ⟨hwrite, rfl⟩

/-- The ways in which a duty that is done can go. -/
inductive Performance (project : Project) (duty : Duty) (t : Tree) : FileResult → Tree → Prop where
  | lost {failure : Failure} (search : duty.place t = .error (.failure failure)) :
      Performance project duty t (.fail (Hindrance.failure failure).message duty.lost) t
  | hindered {key : String} {hindrance : Hindrance} (place : duty.place t = .ok key)
      (revises : duty.revise t key = .error hindrance) :
      Performance project duty t (.fail hindrance.report (.path key)) t
  | refused {key : String} {revision : Revision} {hindrance : Hindrance} {after : Tree}
      (place : duty.place t = .ok key) (revises : duty.revise t key = .ok revision)
      (saves : project.carryOut t key revision.contents = (.error hindrance, after)) :
      Performance project duty t (.fail hindrance.report (.path key)) after
  | answered {key : String} {revision : Revision} {change : Change} {after : Tree}
      (place : duty.place t = .ok key) (revises : duty.revise t key = .ok revision)
      (saves : project.carryOut t key revision.contents = (.ok change, after)) :
      Performance project duty t (revision.answer change) after

theorem perform_of_lost {duty : Duty} {t : Tree} {failure : Failure}
    (h : duty.place t = .error (.failure failure)) :
    project.perform duty t = (.ok (.fail failure.text duty.lost), t) := by
  unfold perform
  rw [h]
  rfl

theorem eq_fail_of_excused {key : String} {hindrance : Hindrance} {result : FileResult}
    (h : excused key (.error hindrance) = .ok result) :
    result = .fail hindrance.report (.path key) := by
  simp only [excused] at h
  split at h
  · exact (Except.ok.inj h).symm
  · cases h

theorem performance_of_perform {duty : Duty} {t after : Tree} {result : FileResult}
    (h : project.perform duty t = (.ok result, after)) :
    project.Performance duty t result after := by
  unfold perform at h
  rcases hplace : duty.place t with hindrance | key
  · rw [hplace] at h
    obtain ⟨hresult, rfl⟩ := Prod.mk.inj h
    cases hindrance with
    | failure failure =>
        obtain rfl := Except.ok.inj hresult
        exact .lost hplace
    | store fault => cases hresult
    | breakdown breakdown => cases hresult
  rw [hplace] at h
  simp only [settle] at h
  rcases hrevise : duty.revise t key with hindrance | revision
  · rw [hrevise] at h
    obtain ⟨hresult, rfl⟩ := Prod.mk.inj h
    obtain rfl := eq_fail_of_excused hresult
    exact .hindered hplace hrevise
  · rw [hrevise] at h
    rcases hcarried : project.carryOut t key revision.contents with ⟨hindrance | change, made⟩
    · simp only [hcarried, Except.map] at h
      obtain ⟨hresult, rfl⟩ := Prod.mk.inj h
      obtain rfl := eq_fail_of_excused hresult
      exact .refused hplace hrevise hcarried
    · simp only [hcarried, Except.map, excused] at h
      obtain ⟨hresult, rfl⟩ := Prod.mk.inj h
      obtain rfl := Except.ok.inj hresult
      exact .answered hplace hrevise hcarried

end Project

/-! ### Files that are only looked at -/

namespace Project

variable {project : Project} (hdry : project.dryRun = true)

include hdry

theorem carryOut_of_dryRun (t : Tree) (key : String) (news : Option Contents) :
    (project.carryOut t key news).2 = t := by
  rcases hcarried : project.carryOut t key news with ⟨change, after⟩
  rcases carryOut_cases hcarried with ⟨done, -, -, hsame⟩ | ⟨contents, -, hreal, -⟩
  · exact hsame
  · rw [hdry] at hreal
    cases hreal

theorem perform_of_dryRun (duty : Duty) (t : Tree) : (project.perform duty t).2 = t := by
  unfold perform
  split
  · rfl
  · next key _ =>
    unfold settle
    split
    · rfl
    · exact carryOut_of_dryRun hdry t key _

theorem performAll_of_dryRun (duties : List Duty) (t : Tree) (report : RunReport) :
    (project.performAll duties t report).2 = t := by
  induction duties generalizing report with
  | nil => rfl
  | cons duty duties ih =>
      have hduty := perform_of_dryRun hdry duty t
      unfold performAll
      rcases hdone : project.perform duty t with ⟨hindrance | result, after⟩
      · rw [hdone] at hduty
        exact hduty
      · rw [hdone] at hduty
        obtain rfl : after = t := hduty
        exact ih _

end Project

/-! ## The four duties -/

/-- The text at a key, nothing when nothing is there. -/
def Store.textOrNothing (store : Store) (t : Tree) (key : String) : Except StoreFault Text := do
  if ← store.has t key then store.readAsText t key else return []

/-- The answer about a resource. -/
def Resource.answer (resource : Resource) (key : String) (change : Change) : FileResult :=
  .ok ⟨resource.platform, key, if change.changed then .patched else .unchanged, none,
    change.written⟩ .none

namespace Duty

variable (store : Store) (credentials : Credentials)

/-- What a resource shall hold. -/
def reviseResource {α : Type} [DecidableEq α] (resource : Resource) (key : String)
    (read : Except StoreFault α) (update : α → Except Hindrance α) (octets : α → Contents) :
    Except Hindrance Revision := do
  let current ← read.mapError .store
  let updated ← update current
  return ⟨if updated ≠ current then some (octets updated) else none, resource.answer key⟩

theorem reviseResource_eq_ok {α : Type} [DecidableEq α] {resource : Resource} {key : String}
    {read : Except StoreFault α} {update : α → Except Hindrance α} {octets : α → Contents}
    {revision : Revision}
    (h : reviseResource resource key read update octets = .ok revision) :
    ∃ current updated, read = .ok current ∧ update current = .ok updated ∧
      revision = ⟨if updated ≠ current then some (octets updated) else none,
        resource.answer key⟩ := by
  unfold reviseResource at h
  obtain ⟨current, hread, h⟩ := bind_eq_ok.1 h
  obtain ⟨updated, hupdated, h⟩ := bind_eq_ok.1 h
  exact ⟨current, updated, mapError_eq_ok.1 hread, hupdated, (Except.ok.inj h).symm⟩

/-- What the table of strings shall hold. -/
def reviseStrings (t : Tree) (key : String) : Except Hindrance Revision :=
  reviseResource .stringTable key (store.textOrNothing t key)
    (Project.updatedStrings · credentials) Utf8.encode

/-- What the property list shall hold. -/
def reviseProperties (t : Tree) (key : String) : Except Hindrance Revision :=
  reviseResource .propertyList key (store.read t key) (Project.updatedProperties · credentials) id

/-- What an entry file shall hold. -/
def reviseEntry (platform : Platform) (t : Tree) (key : String) : Except Hindrance Revision := do
  let text ← (store.readAsText t key).mapError .store
  let outcome := Outcome.ofEntry platform key text
  return ⟨if outcome.changed then some (Utf8.encode outcome.contents) else none,
    fun change => Project.entryResult (outcome.report platform change.written) outcome.diagnostics⟩

theorem reviseEntry_of_fault {store : Store} {platform : Platform} {t : Tree} {key : String}
    {fault : StoreFault} (h : store.readAsText t key = .error fault) :
    reviseEntry store platform t key = .error (.store fault) := by
  unfold reviseEntry
  rw [h]
  rfl

theorem reviseEntry_of_text {store : Store} {platform : Platform} {t : Tree} {key : String}
    {text : Text} (h : store.readAsText t key = .ok text) :
    let outcome := Outcome.ofEntry platform key text
    reviseEntry store platform t key =
      .ok ⟨if outcome.changed then some (Utf8.encode outcome.contents) else none,
        fun change => Project.entryResult (outcome.report platform change.written)
          outcome.diagnostics⟩ := by
  unfold reviseEntry
  rw [h]
  rfl

theorem reviseEntry_eq_ok {store : Store} {platform : Platform} {t : Tree} {key : String}
    {revision : Revision} (h : reviseEntry store platform t key = .ok revision) :
    ∃ text, store.readAsText t key = .ok text ∧
      let outcome := Outcome.ofEntry platform key text
      revision = ⟨if outcome.changed then some (Utf8.encode outcome.contents) else none,
        fun change => Project.entryResult (outcome.report platform change.written)
          outcome.diagnostics⟩ := by
  rcases hread : store.readAsText t key with fault | text
  · rw [reviseEntry_of_fault hread] at h
    cases h
  · rw [reviseEntry_of_text hread] at h
    exact ⟨text, rfl, (Except.ok.inj h).symm⟩

/-- The credentials of a platform. -/
def ofResource : Platform → Duty
  | .android =>
    ⟨.android, Resource.stringTable.name, .none, fun _ => .ok Location.stringTableKey,
      reviseStrings store credentials⟩
  | .ios =>
    ⟨.ios, Resource.propertyList.name, .none, Location.ofPropertyList store,
      reviseProperties store credentials⟩

/-- The entry file of a platform. -/
def ofEntry (platform : Platform) : Duty :=
  ⟨platform, platform.entryName, .platform platform, (Location.ofEntryFile store · platform),
    reviseEntry store platform⟩

/-- The duties for a platform, in order. -/
def ofPlatform (platform : Platform) : List Duty :=
  [ofResource store credentials platform, ofEntry store platform]

/-- All duties of a run, in order. -/
def all (config : PatchSettings) : List Duty :=
  config.platforms.flatMap (ofPlatform store credentials)

end Duty

/-! ## A run does its duties -/

namespace Project

open Work

theorem ends_conclude {resource : Resource} {key : String} {work : Work Change} {t after : Tree}
    {result : Except Hindrance Change} (h : work.Ends t result after) :
    Ends (resource.conclude key work) t (excused key (result.map (resource.answer key))) after := by
  unfold Resource.conclude
  cases result with
  | ok change => exact (h.caught _).bind ((ends_pure _ after).after_tell _)
  | error hindrance => exact h.bind_caught_error _ ((ends_pure _ after).after_tell _)

variable (project : Project) (t : Tree) (key : String)

theorem ends_save (changed : Bool) (contents : Contents) :
    Ends (project.save changed (project.store.write · key contents)) t
      (project.carryOut t key (if changed then some contents else none)).1
      (project.carryOut t key (if changed then some contents else none)).2 := by
  unfold save
  cases changed with
  | false => exact ends_pure _ t
  | true =>
      rw [if_pos rfl]
      cases hdry : project.dryRun with
      | true =>
          simp only [carryOut, hdry, if_true]
          exact ends_pure _ t
      | false =>
          have hchange := ends_change (project.store.write · key contents) t
          rcases hwrite : project.store.write t key contents with ⟨_ | fault, after⟩
          · simp only [hwrite] at hchange
            simp only [carryOut, hdry, hwrite]
            exact hchange.bind (ends_pure _ after)
          · simp only [hwrite] at hchange
            simp only [carryOut, hdry, hwrite]
            exact hchange.bind_error

theorem ends_currentStrings :
    Ends (project.currentStrings key) t
      ((project.store.textOrNothing t key).mapError .store) t := by
  have hhas := ends_askFiles (project.store.has · key) t
  unfold currentStrings Store.textOrNothing
  rcases h : project.store.has t key with fault | there
  · rw [h] at hhas
    exact hhas.bind_error
  · rw [h] at hhas
    cases there with
    | true => exact hhas.bind (ends_askFiles (project.store.readAsText · key) t)
    | false => exact hhas.bind (ends_pure [] t)

/-- Both resources are read, updated, saved and told about in the same way. -/
theorem ends_resource {α : Type} [DecidableEq α] {read : Work α} {current : Except StoreFault α}
    (hread : read.Ends t (current.mapError .store) t) (resource : Resource)
    (update : α → Except Hindrance α) (octets : α → Contents) :
    Ends (resource.conclude key do
        let current ← read
        let updated ← Work.ask fun _ => update current
        project.save (updated ≠ current) (project.store.write · key (octets updated))) t
      (project.settle t key (Duty.reviseResource resource key current update octets)).1
      (project.settle t key (Duty.reviseResource resource key current update octets)).2 := by
  unfold Duty.reviseResource
  rcases current with fault | current
  · exact ends_conclude hread.bind_error
  show Ends _ t
    (project.settle t key (update current >>= fun updated => pure (.mk _ _))).1
    (project.settle t key (update current >>= fun updated => pure (.mk _ _))).2
  rcases hupdated : update current with hindrance | updated
  · refine ends_conclude (?_ : Ends _ t (.error hindrance) t)
    refine hread.bind ?_
    exact (ends_ask hupdated).bind_error
  · have hsave := project.ends_save t key (updated ≠ current) (octets updated)
    simp only [decide_eq_true_eq] at hsave
    refine ends_conclude (hread.bind ?_)
    exact (ends_ask hupdated).bind hsave

variable (credentials : Credentials) (platform : Platform)

theorem ends_updateStringTable :
    Ends (project.updateStringTable credentials) t
      (project.perform (.ofResource project.store credentials .android) t).1
      (project.perform (.ofResource project.store credentials .android) t).2 :=
  project.ends_resource t _ (project.ends_currentStrings t Location.stringTableKey) _ _ _

theorem ends_updatePropertyList :
    Ends (project.updatePropertyList credentials) t
      (project.perform (.ofResource project.store credentials .ios) t).1
      (project.perform (.ofResource project.store credentials .ios) t).2 := by
  unfold updatePropertyList
  simp only [perform, Duty.ofResource]
  rcases hkey : Location.ofPropertyList project.store t with hindrance | key
  · exact (ends_ask hkey).bind_caught_error _ ((ends_pure _ t).after_tell _)
  · exact ((ends_ask hkey).caught _).bind
      (project.ends_resource t key (ends_askFiles (project.store.read · key) t) _ _ _)

theorem ends_updateResource :
    Ends (project.updateResource credentials platform) t
      (project.perform (.ofResource project.store credentials platform) t).1
      (project.perform (.ofResource project.store credentials platform) t).2 := by
  cases platform with
  | android => exact project.ends_updateStringTable t credentials
  | ios => exact project.ends_updatePropertyList t credentials

theorem ends_patchAt {text : Text} (htext : project.store.readAsText t key = .ok text) :
    let outcome := Outcome.ofEntry platform key text
    let saved := project.carryOut t key
      (if outcome.changed then some (Utf8.encode outcome.contents) else none)
    Ends (project.patchAt platform key) t
      (saved.1.map fun change => (outcome.report platform change.written, outcome.diagnostics))
      saved.2 := by
  intro outcome saved
  have hsave :
      Ends (project.save outcome.changed (project.store.writeAsText · key outcome.contents))
        t saved.1 saved.2 := project.ends_save t key outcome.changed (Utf8.encode outcome.contents)
  have hread := ends_askFiles (project.store.readAsText · key) t
  simp only [htext] at hread
  unfold patchAt
  refine hread.bind ((ends_tellAll Diagnostic.event outcome.diagnostics t).bind ?_)
  rcases hsaved : saved.1 with hindrance | change
  · rw [hsaved] at hsave
    exact hsave.bind_error
  · rw [hsaved] at hsave
    exact hsave.bind ((ends_pure _ saved.2).after_tell outcome.event)

theorem ends_patchPlatform :
    Ends (project.patchPlatform platform) t
      (project.perform (.ofEntry project.store platform) t).1
      (project.perform (.ofEntry project.store platform) t).2 := by
  unfold patchPlatform
  simp only [perform, Duty.ofEntry]
  rcases hkey : Location.ofEntryFile project.store t platform with hindrance | key
  · exact (ends_ask hkey).bind_caught_error _ ((ends_pure _ t).after_tell _)
  refine ((ends_ask hkey).caught _).bind ?_
  rcases htext : project.store.readAsText t key with fault | text
  · have hread := ends_askFiles (project.store.readAsText · key) t
    simp only [htext] at hread
    have hpatch : Ends (project.patchAt platform key) t (.error (.store fault)) t :=
      hread.bind_error
    simp only [Duty.reviseEntry_of_fault htext, settle, excused]
    refine hpatch.bind_caught_error _ ?_
    exact (ends_pure _ t).after_tell _
  · have hpatch := project.ends_patchAt t key platform htext
    simp only [Duty.reviseEntry_of_text htext, settle]
    rcases hsaved : project.carryOut t key _ with ⟨hindrance | change, after⟩
    · simp only [hsaved] at hpatch
      simp only [Except.map, excused]
      refine hpatch.bind_caught_error _ ?_
      exact (ends_pure _ after).after_tell _
    · simp only [hsaved] at hpatch
      exact (hpatch.caught _).bind (ends_pure _ after)

/-! ### Duties one after the other -/

theorem performAll_append (some more : List Duty) (report : RunReport) :
    project.performAll (some ++ more) t report =
      match project.performAll some t report with
      | (.error hindrance, after) => (.error hindrance, after)
      | (.ok report, after) => project.performAll more after report := by
  induction some generalizing t report with
  | nil => rfl
  | cons duty some ih =>
      simp only [List.cons_append, performAll]
      rcases project.perform duty t with ⟨hindrance | result, after⟩
      · rfl
      · exact ih after _

theorem ends_servePlatform (report : RunReport) :
    Ends (project.servePlatform credentials platform report) t
      (project.performAll (Duty.ofPlatform project.store credentials platform) t report).1
      (project.performAll (Duty.ofPlatform project.store credentials platform) t report).2 := by
  have hresource := project.ends_updateResource t credentials platform
  simp only [Duty.ofPlatform, performAll]
  rcases hfirst : project.perform (.ofResource project.store credentials platform) t with
    ⟨hindrance | resource, between⟩
  · rw [hfirst] at hresource
    exact hresource.bind_error
  rw [hfirst] at hresource
  have hentry := project.ends_patchPlatform between platform
  refine hresource.bind ?_
  simp only
  rcases hsecond : project.perform (.ofEntry project.store platform) between with
    ⟨hindrance | entry, after⟩
  · rw [hsecond] at hentry
    exact hentry.bind_error
  · rw [hsecond] at hentry
    cases platform with
    | android => exact hentry.bind (ends_pure _ after)
    | ios => exact hentry.bind (ends_pure _ after)

theorem ends_platforms (platforms : List Platform) (report : RunReport) :
    let duties := platforms.flatMap (Duty.ofPlatform project.store credentials)
    Ends (platforms.foldlM
        (fun report platform => project.servePlatform credentials platform report) report) t
      (project.performAll duties t report).1 (project.performAll duties t report).2 := by
  induction platforms generalizing t report with
  | nil => exact ends_pure report t
  | cons platform platforms ih =>
      have hfirst := project.ends_servePlatform t credentials platform report
      simp only [List.flatMap_cons, List.foldlM_cons, performAll_append]
      rcases hdone :
        project.performAll (Duty.ofPlatform project.store credentials platform) t report
        with ⟨hindrance | report, between⟩
      · rw [hdone] at hfirst
        exact hfirst.bind_error
      · rw [hdone] at hfirst
        exact hfirst.bind (ih between report)

theorem ends_servePlatforms (config : PatchSettings) :
    let duties := Duty.all project.store credentials config
    Ends (project.servePlatforms credentials config) t (project.performAll duties t .initial).1
      (project.performAll duties t .initial).2 := by
  intro duties
  have hplatforms : Ends _ t (project.performAll duties t .initial).1
      (project.performAll duties t .initial).2 :=
    project.ends_platforms t credentials config.platforms .initial
  unfold servePlatforms
  refine Ends.after_tell ?_ _
  rcases hdone : project.performAll duties t .initial with ⟨hindrance | report, after⟩
  · rw [hdone] at hplatforms
    exact hplatforms.bind_error
  · rw [hdone] at hplatforms
    exact hplatforms.bind ((ends_pure report after).after_tell _)

end Project

open Work in
/-- A run with good credentials over a project ends as its duties do. -/
theorem ends_runOver {root : Path} {credentials : Credentials} (config : PatchSettings) {t : Tree}
    {store : Store} (hgiven : credentials.areGiven = true) (hgood : credentials.failure? = none)
    (hstore : Store.ofProject t root = .ok store) :
    let done := (Project.mk store config.dryRun).performAll (Duty.all store credentials config) t
      .initial
    Ends (runOver root credentials config) t done.1 done.2 := by
  intro done
  have hask := ends_askFiles (Store.ofProject · root) t
  simp only [hstore] at hask
  have hserve := (Project.mk store config.dryRun).ends_servePlatforms t credentials config
  unfold runOver
  simp only [hgiven, hgood]
  exact hask.bind (hserve.inContext _)

end BundleHook
