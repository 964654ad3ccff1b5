import BundleHook.Proofs.Service.Acceptance
import BundleHook.Proofs.Service.Steadiness

/-!
# Duties at rest

A duty that is done again right after itself has nothing left to write, or what it would write is
refused. So it stays while the duties behind it change files of other names. A table of strings that
is written is told to be unchanged the next time, unless it cannot be read again.

* `Duty.Rests` — a duty with nothing left to write;
* `Duty.Turn` — the ways in which a duty can go;
* `Duty.exists_rests_of_steady`, `Duty.exists_rests_stringTable` — a duty done again.
-/

namespace BundleHook

open Glob (pathAt)
open Markup (IsLegal)

/-- The state of a file in the next run. -/
def FileState.again : FileState → FileState
  | patched => unchanged
  | state => state

theorem FileState.again_of_ne_patched {state : FileState} (h : state ≠ .patched) :
    state.again = state := by
  cases state with
  | patched => exact absurd rfl h
  | _ => rfl

/-- The resource that the run has written was found with its names spelled. -/
def FileReport.FoundSpelled (store : Store) (t : Tree) (file : FileReport) : Prop :=
  file.written = true → file.dialect = none → file.platform.FindsSpelled store t file.path

/-! ## Duties at rest -/

namespace Duty

/-- The duty comes to the result and leaves everything as it is; whatever it would write is
refused. -/
structure Rests (store : Store) (duty : Duty) (t : Tree) (result : FileResult) : Prop where
  performs : (Project.mk store false).perform duty t = (.ok result, t)
  refuses : ∀ key contents answer, duty.place t = .ok key →
    duty.revise t key = .ok ⟨some contents, answer⟩ →
      ∃ fault, store.write t key contents = (some fault, t)

variable {store : Store} {duty : Duty} {t : Tree} {result : FileResult}

/-- New contents of files that make no difference to the duty leave it at rest. -/
theorem Rests.overwrite (h : duty.Rests store t result) {news : News} (hnews : t.HasFilesFor news)
    (hplace : duty.place (t.overwrite news) = duty.place t)
    (hrevise : ∀ key, duty.place t = .ok key →
      duty.revise (t.overwrite news) key = duty.revise t key) :
    duty.Rests store (t.overwrite news) result := by
  obtain ⟨performs, refuses⟩ := h
  constructor
  case performs =>
    unfold Project.perform at performs ⊢
    rw [hplace]
    rcases hkey : duty.place t with hindrance | key
    · rw [hkey] at performs
      exact congrArg (·, _) (Prod.mk.inj performs).1
    simp only [hkey] at performs
    simp only [hrevise key hkey]
    rcases hrevision : duty.revise t key with hindrance | ⟨_ | contents, answer⟩
    · rw [hrevision] at performs
      exact congrArg (·, _) (Prod.mk.inj performs).1
    · rw [hrevision] at performs
      exact congrArg (·, _) (Prod.mk.inj performs).1
    · obtain ⟨fault, hrefused⟩ := refuses key contents answer hkey hrevision
      have hrefused' := Store.write_refused_overwrite hnews hrefused
      simp only [hrevision, Project.settle, Project.carryOut, hrefused] at performs
      simp only [Project.settle, Project.carryOut, hrefused']
      exact congrArg (·, _) (Prod.mk.inj performs).1
  case refuses =>
    intro key contents answer hkey hrevision
    rw [hplace] at hkey
    rw [hrevise key hkey] at hrevision
    obtain ⟨fault, hrefused⟩ := refuses key contents answer hkey hrevision
    exact ⟨fault, Store.write_refused_overwrite hnews hrefused⟩

/-- A duty that has nothing to write rests. -/
theorem rests_of_kept {key : String} {answer : Change → FileResult} (hplace : duty.place t = .ok key)
    (hrevise : duty.revise t key = .ok ⟨none, answer⟩) :
    duty.Rests store t (answer ⟨false, false⟩) where
  performs := by
    unfold Project.perform
    rw [hplace]
    simp only [hrevise]
    rfl
  refuses key' contents answer' hkey hrevision := by
    obtain rfl := Except.ok.inj (hplace.symm.trans hkey)
    rw [hrevise] at hrevision
    cases hrevision

/-- So does one that is hindered by its file. -/
theorem rests_of_hindered {key : String} {hindrance : Hindrance} (hplace : duty.place t = .ok key)
    (hrevise : duty.revise t key = .error hindrance) (hfile : hindrance.isOfFile = true) :
    duty.Rests store t (.fail hindrance.report (.path key)) where
  performs := by
    unfold Project.perform
    rw [hplace]
    simp only [hrevise, Project.settle, Project.excused, hfile, if_true]
  refuses key' contents answer' hkey hrevision := by
    obtain rfl := Except.ok.inj (hplace.symm.trans hkey)
    rw [hrevise] at hrevision
    cases hrevision

/-! ## What doing a duty comes to -/

/-- The ways in which a duty that leaves a note can go: there is nothing to write, or writing is
refused, or it is done. -/
inductive Turn (store : Store) (duty : Duty) (t : Tree) (note : Note) : Tree → Prop where
  | kept (nothing : ∀ key contents answer, duty.place t = .ok key →
        duty.revise t key ≠ .ok ⟨some contents, answer⟩)
      (calm : note.file.status ≠ .patched) (unwritten : note.file.written = false) :
      Turn store duty t note t
  | refused {key : String} {contents : Contents} {answer : Change → FileResult}
      {fault : StoreFault} {after : Tree} (place : duty.place t = .ok key)
      (revises : duty.revise t key = .ok ⟨some contents, answer⟩)
      (writes : store.write t key contents = (some fault, after))
      (calm : note.file.status ≠ .patched) (unwritten : note.file.written = false) :
      Turn store duty t note after
  | wrote {key : String} {contents : Contents} {answer : Change → FileResult} {after : Tree}
      (place : duty.place t = .ok key)
      (revises : duty.revise t key = .ok ⟨some contents, answer⟩)
      (writes : store.write t key contents = (none, after))
      (isOf : note.IsOf duty (answer ⟨true, true⟩)) : Turn store duty t note after

variable {credentials : Credentials} {config : PatchSettings}

/-- An answer tells of a patch exactly when there are new contents. -/
theorem status_isOn (hduty : duty ∈ all store credentials config) {key : String}
    {contents : Option Contents} {answer : Change → FileResult}
    (hrevise : duty.revise t key = .ok ⟨contents, answer⟩) {written : Bool} {note : Note}
    (hnote : note.IsOf duty (answer ⟨contents.isSome, written⟩)) :
    note.file.status = .patched ↔ contents.isSome = true := by
  obtain ⟨platform, -, hmem⟩ := List.mem_flatMap.1 hduty
  rcases List.mem_cons.1 hmem with rfl | hentry
  · cases platform with
    | android =>
        obtain ⟨current, updated, -, -, hrevision⟩ := reviseResource_eq_ok hrevise
        obtain ⟨-, rfl⟩ := Revision.mk.inj hrevision
        obtain rfl := hnote.unique (isOn_resource rfl key _).isOf
        cases contents <;> simp
    | ios =>
        obtain ⟨current, updated, -, -, hrevision⟩ := reviseResource_eq_ok hrevise
        obtain ⟨-, rfl⟩ := Revision.mk.inj hrevision
        obtain rfl := hnote.unique (isOn_resource rfl key _).isOf
        cases contents <;> simp
  · obtain rfl := List.mem_singleton.1 hentry
    obtain ⟨text, -, hrevision⟩ := reviseEntry_eq_ok hrevise
    obtain ⟨rfl, rfl⟩ := Revision.mk.inj hrevision
    obtain rfl := hnote.unique (@isOn_entry store platform key text written).isOf
    have hdecides := Outcome.decides_ofEntry platform key text
    simp only [Outcome.report]
    generalize Outcome.ofEntry platform key text = outcome at hdecides
    cases hdecides <;> simp [Outcome.status, Outcome.installed, Outcome.refused, Outcome.patched]

theorem exists_turn (hduty : duty ∈ all store credentials config) {after : Tree}
    (hperform : (Project.mk store false).perform duty t = (.ok result, after)) :
    ∃ note : Note, note.IsOf duty result ∧ note.IsHonest duty t ∧ Turn store duty t note after := by
  have hperformance := Project.performance_of_perform hperform
  obtain ⟨note, hnote, hhonest⟩ := @exists_honest_note ⟨store, false⟩ _ _ _ hduty _ _ _ hperformance
  refine ⟨note, hnote, hhonest, ?_⟩
  cases hperformance with
  | lost search =>
      obtain rfl := hnote.unique (isOf_fail_lost duty _ (careful_of_mem_all hduty).lost)
      refine .kept (fun key contents answer hplace => ?_) (by simp) rfl
      rw [search] at hplace
      cases hplace
  | hindered place revises =>
      obtain rfl := hnote.unique (isOf_fail_path duty _ _)
      refine .kept (fun key contents answer hplace hrevise => ?_) (by simp) rfl
      obtain rfl := Except.ok.inj (place.symm.trans hplace)
      rw [revises] at hrevise
      cases hrevise
  | @refused key revision hindrance _ place revises saves =>
      obtain rfl := hnote.unique (isOf_fail_path duty _ _)
      obtain ⟨_ | contents, answer⟩ := revision
      · cases saves
      rcases hwrite : store.write t key contents with ⟨_ | fault, made⟩
      · simp only [Project.carryOut, hwrite] at saves
        cases saves
      · simp only [Project.carryOut, hwrite] at saves
        obtain ⟨-, rfl⟩ := Prod.mk.inj saves
        exact .refused place revises hwrite (by simp) rfl
  | @answered key revision change _ place revises saves =>
      obtain ⟨_ | contents, answer⟩ := revision
      · obtain ⟨hchange, rfl⟩ := Prod.mk.inj saves
        obtain rfl := Except.ok.inj hchange
        have hstatus := status_isOn hduty revises hnote
        obtain ⟨other, hother, hwritten, -⟩ := exists_isOn hduty revises ⟨false, false⟩
        obtain rfl := hnote.unique hother.isOf
        refine .kept (fun key' contents answer' hplace hrevise => ?_) (by simp [hstatus]) hwritten
        obtain rfl := Except.ok.inj (place.symm.trans hplace)
        rw [revises] at hrevise
        cases hrevise
      · rcases hwrite : store.write t key contents with ⟨_ | fault, made⟩
        · simp only [Project.carryOut, hwrite] at saves
          obtain ⟨hchange, rfl⟩ := Prod.mk.inj saves
          obtain rfl := Except.ok.inj hchange
          exact .wrote place revises hwrite hnote
        · simp only [Project.carryOut, hwrite] at saves
          cases saves

/-! ## Duties done again -/

/-- Done again, the duty rests, and the state that it reports is as it should be. -/
def RestsIn (store : Store) (duty : Duty) (after : Tree) (expected : FileState → Prop) : Prop :=
  ∃ result, duty.Rests store after result ∧
    ∀ note : Note, note.IsOf duty result → expected note.file.status

theorem RestsIn.mono {expected more : FileState → Prop} (h : duty.RestsIn store t expected)
    (hmore : ∀ state, expected state → more state) : duty.RestsIn store t more := by
  obtain ⟨result, hrests, hexpected⟩ := h
  exact ⟨result, hrests, fun note hnote => hmore _ (hexpected note hnote)⟩

theorem RestsIn.overwrite {expected : FileState → Prop} (h : duty.RestsIn store t expected)
    {news : News} (hnews : t.HasFilesFor news)
    (hplace : duty.place (t.overwrite news) = duty.place t)
    (hrevise : ∀ key, duty.place t = .ok key →
      duty.revise (t.overwrite news) key = duty.revise t key) :
    duty.RestsIn store (t.overwrite news) expected := by
  obtain ⟨result, hrests, hexpected⟩ := h
  exact ⟨result, hrests.overwrite hnews hplace hrevise, hexpected⟩

/-- A duty that has left everything as it was comes to the same. -/
theorem restsIn_of_calm {note : Note} (hnote : note.IsOf duty result)
    (hrests : duty.Rests store t result) (hcalm : note.file.status ≠ .patched) :
    duty.RestsIn store t (· = note.file.status.again) := by
  refine ⟨result, hrests, fun other hother => ?_⟩
  rw [hother.unique hnote, FileState.again_of_ne_patched hcalm]

/-! ### Steady duties -/

/-- Strings or keys that are as they should be rest. -/
theorem restsIn_of_reviseResource {α : Type} [DecidableEq α] {resource : Resource}
    {key : String} {current : α} {update : α → Except Hindrance α} {octets : α → Contents}
    (hplatform : resource.platform = duty.platform) (hplace : duty.place t = .ok key)
    (hrevise : duty.revise t key = reviseResource resource key (.ok current) update octets)
    (hsettled : update current = .ok current) : duty.RestsIn store t (· = .unchanged) := by
  have hkept : duty.revise t key = .ok ⟨none, resource.answer key⟩ := by
    rw [hrevise]
    unfold reviseResource
    simp only [Except.mapError, bind, Except.bind, hsettled, ne_eq, not_true_eq_false, if_false]
    rfl
  refine ⟨_, rests_of_kept hplace hkept, fun note hnote => ?_⟩
  rw [hnote.unique (isOn_resource hplatform key _).isOf]
  rfl

/-! ### Steady duties -/

theorem settles_entry {platform : Platform} {after : Tree} {key : String} {contents : Contents}
    {answer : Change → FileResult} (hplace : Location.ofEntryFile store after platform = .ok key)
    (hrevise : reviseEntry store platform t key = .ok ⟨some contents, answer⟩)
    (hread : store.read after key = .ok contents) :
    (ofEntry store platform).RestsIn store after (· = .unchanged) := by
  obtain ⟨text, -, hrevision⟩ := reviseEntry_eq_ok hrevise
  obtain ⟨hcontents, -⟩ := Revision.mk.inj hrevision
  obtain ⟨hchanged, hsome⟩ := Option.ite_none_right_eq_some.1 hcontents.symm
  obtain rfl := Option.some.inj hsome
  -- The text that was written has its hook.
  obtain ⟨dialect, hagain⟩ :=
    Outcome.ofEntry_of_isInstalled (Outcome.isInstalled_of_changed hchanged).2 key
  have htext := Store.readAsText_of_read hread
  rw [Utf8.decode_encode] at htext
  have hkept := @reviseEntry_of_text store platform _ _ _ htext
  simp only [hagain] at hkept
  have hrests := @rests_of_kept store (ofEntry store platform) _ _ _ hplace hkept
  refine ⟨_, hrests, fun note hnote => ?_⟩
  have hon := @isOn_entry store platform key
    (Outcome.ofEntry platform key text).contents false
  simp only [hagain] at hon
  rw [hnote.unique hon.isOf]
  rfl

theorem settles_propertyList
    (hlegal : ∀ item ∈ credentials.items, IsLegal item.2 ∧ '\r' ∉ item.2) {after : Tree}
    {key : String} {contents : Contents} {answer : Change → FileResult}
    (hplace : Location.ofPropertyList store after = .ok key)
    (hrevise : reviseProperties store credentials t key = .ok ⟨some contents, answer⟩)
    (hread : store.read after key = .ok contents) :
    (ofResource store credentials .ios).RestsIn store after (· = .unchanged) := by
  obtain ⟨current, -, hupsert, -⟩ := reviseProperties_eq_some hrevise
  have hmarks (item : Text × Text) (hitem : item ∈ credentials.items) :
      PropertyList.HasNoMark item.1 ∧ PropertyList.HasNoMark item.2 ∧ '\r' ∉ item.2 := by
    have hkey := credentials.isLegal_of_mem_items hitem
    obtain ⟨hvalue, hreturn⟩ := hlegal item hitem
    exact ⟨PropertyList.hasNoMark_of_isLegal fun c hc hbad => by simp [hkey c hc] at hbad,
      PropertyList.hasNoMark_of_isLegal fun c hc hbad => by simp [hvalue c hc] at hbad, hreturn⟩
  have hagain := PropertyList.upsert_settles credentials.hasPlainKeys_items (.inr hmarks) hupsert
  have hrevise' : (ofResource store credentials .ios).revise after key =
      reviseResource .propertyList key (.ok contents) (Project.updatedProperties · credentials)
        id := by
    show reviseProperties store credentials after key = _
    unfold reviseProperties
    rw [hread]
  exact restsIn_of_reviseResource rfl hplace hrevise' (updatedProperties_eq_ok.2 hagain)

/-- Only the property list is a resource among the later duties. -/
theorem platform_of_mem_later (h : duty ∈ later store credentials config)
    {platform : Platform} (heq : duty = ofResource store credentials platform) :
    platform = .ios := by
  have hname := congrArg Duty.name heq
  rcases List.mem_append.1 h with h | h
  · split at h
    · obtain rfl := List.mem_singleton.1 h
      cases platform <;> simp [ofEntry, ofResource, Platform.entryName, Resource.stringTable,
        Resource.propertyList] at hname
    · cases h
  · cases platform with
    | ios => rfl
    | android =>
        have hplatform := congrArg Duty.platform heq
        split at h
        · rcases List.mem_cons.1 h with rfl | h
          · cases hplatform
          · obtain rfl := List.mem_singleton.1 h
            cases hplatform
        · cases h

theorem settles_of_mem_later
    (hlegal : ∀ item ∈ credentials.items, IsLegal item.2 ∧ '\r' ∉ item.2)
    (hduty : duty ∈ later store credentials config) {after : Tree} {key : String}
    {contents : Contents} {answer : Change → FileResult} (hplace : duty.place after = .ok key)
    (hrevise : duty.revise t key = .ok ⟨some contents, answer⟩)
    (hread : store.read after key = .ok contents) : duty.RestsIn store after (· = .unchanged) := by
  rcases List.mem_append.1 hduty with hduty | hduty
  · split at hduty
    · obtain rfl := List.mem_singleton.1 hduty
      exact settles_entry hplace hrevise hread
    · cases hduty
  · split at hduty
    · rcases List.mem_cons.1 hduty with rfl | hduty
      · exact settles_propertyList hlegal hplace hrevise hread
      · obtain rfl := List.mem_singleton.1 hduty
        exact settles_entry hplace hrevise hread
    · cases hduty

/-- A steady duty has moved the project by its own file at most, and rests from then on. -/
theorem exists_rests_of_steady
    (hlegal : ∀ item ∈ credentials.items, IsLegal item.2 ∧ '\r' ∉ item.2)
    (hduty : duty ∈ later store credentials config) (h : Store.Unlinked t store.root) {after : Tree}
    (hperform : (Project.mk store false).perform duty t = (.ok result, after)) :
    (∃ news, after = t.overwrite news ∧ Moved store duty.endings t t news) ∧
      ∃ note : Note, note.IsOf duty result ∧ note.IsHonest duty t ∧
        duty.RestsIn store after (· = note.file.status.again) ∧
        ∀ base, note.file.FoundSpelled store base := by
  have hsteady := steady_of_mem_later hduty
  have hmoved := Moved.nothing h.linkless []
  obtain ⟨note, hnote, hhonest, hturn⟩ := exists_turn (mem_all_of_mem_later hduty) hperform
  -- What a steady duty has read it can write.
  have hwrite {key : String} {contents : Contents} {answer : Change → FileResult}
      (hplace : duty.place t = .ok key)
      (hrevise : duty.revise t key = .ok ⟨some contents, answer⟩) :
      ∃ q held, store.Finds t key q held ∧
        store.write t key contents = (none, t.overwrite (.add .nothing q contents)) ∧
        Moved store duty.endings t t (.add .nothing q contents) := by
    obtain ⟨held, hread⟩ := hsteady.reads hrevise
    have hwritten := hsteady.write_moved h hmoved hplace hread contents
    rwa [Tree.overwrite_nothing, List.append_nil] at hwritten
  cases hturn with
  | kept nothing calm unwritten =>
      refine ⟨⟨.nothing, (Tree.overwrite_nothing t).symm, .nothing h.linkless _⟩, note, hnote,
        hhonest, restsIn_of_calm hnote ⟨hperform, fun key contents answer hplace hrevise => ?_⟩
          calm, fun base hwritten => ?_⟩
      · exact absurd hrevise (nothing key contents answer hplace)
      · rw [unwritten] at hwritten
        cases hwritten
  | refused place revises writes =>
      obtain ⟨q, held, -, hwritten, -⟩ := hwrite place revises
      rw [hwritten] at writes
      cases writes
  | @wrote key contents answer _ place revises writes isOf =>
      have patched := (status_isOn (mem_all_of_mem_later hduty) revises isOf).2 rfl
      obtain ⟨q, held, hfinds, hwritten, hmoved'⟩ := hwrite place revises
      obtain ⟨-, rfl⟩ := Prod.mk.inj (hwritten.symm.trans writes)
      have hplace := (hsteady.place_overwrite hmoved'.held h.linkless.unique).trans place
      have hread := (hfinds.overwrite hmoved'.held).read
      rw [News.add, if_pos rfl, Option.getD_some] at hread
      refine ⟨⟨_, rfl, hmoved'⟩, note, hnote, hhonest, ?_, fun base _ hnone => ?_⟩
      · rw [patched]
        exact settles_of_mem_later hlegal hduty hplace revises hread
      · obtain ⟨other, hother, -, hresource⟩ :=
          exists_isOn (mem_all_of_mem_later hduty) revises ⟨true, true⟩
        obtain rfl := isOf.unique hother.isOf
        obtain ⟨platform, heq⟩ := hresource hnone
        obtain rfl := platform_of_mem_later hduty heq
        have hios : note.file.platform = .ios := hhonest.about.1.trans (heq ▸ rfl)
        rw [hios]
        trivial

end Duty

end BundleHook
