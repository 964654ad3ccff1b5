import BundleHook.Proofs.PropertyList.Settling
import BundleHook.Proofs.Resource.Upserting
import BundleHook.Proofs.Service.Effect
import BundleHook.Proofs.Service.Reporting

/-!
# Written resources are accepted again

What a run writes to a resource goes through the same update once more, if the credentials are legal
texts and the strings are named as names are spelled. A property list that is binary takes any
credentials; otherwise a code point that no document may hold is written, and refused from then on.

* `accepted_again_iff` — what the run must have found and written;
* `written_of_report` — what is reported as written has been written.
-/

namespace BundleHook

open Markup

/-! ## Writing within a run -/

namespace Project

/-- The duty finds its file at the key and writes contents to it. -/
structure Writes (project : Project) (duty : Duty) (t after : Tree) (key : String)
    (contents : Contents) : Prop where
  place : duty.place t = .ok key
  revises : ∃ answer, duty.revise t key = .ok ⟨some contents, answer⟩
  real : project.dryRun = false
  saves : project.store.write t key contents = (none, after)

end Project

/-- A run over `t` comes to `before` and there writes contents to the resource of a platform. -/
structure WritesResource (root : Path) (credentials : Credentials) (config : PatchSettings)
    (t : Tree) (store : Store) (platform : Platform) (before after : Tree) (key : String)
    (contents : Contents) : Prop where
  given : credentials.areGiven = true
  good : credentials.failure? = none
  opened : Store.ofProject t root = .ok store
  reaches : (Project.mk store config.dryRun).Reaches (Duty.all store credentials config) t
    (Duty.ofResource store credentials platform) before
  writes : (Project.mk store config.dryRun).Writes (Duty.ofResource store credentials platform)
    before after key contents

/-- The update of the resource goes through. -/
def Platform.Accepts (credentials : Credentials) : Platform → Contents → Prop
  | android, contents => ∃ text updated, Utf8.decode contents = .ok text ∧
      StringTable.upsert text credentials.items = .ok updated
  | ios, contents => ∃ updated, PropertyList.upsert contents credentials.items = .ok updated

/-- Strings that are found are named as names are spelled. -/
def Platform.FindsSpelled (store : Store) (t : Tree) (key : String) : Platform → Prop
  | android => ∃ current root, store.textOrNothing t key = .ok current ∧
      StringTable.read current = .ok root ∧ root.IsSpelled
  | ios => True

/-- What is written to a resource is what it can hold: to a document, legal strings and texts
without the two marks, and to a binary file anything. -/
def Platform.Holds (store : Store) (credentials : Credentials) (t : Tree) (key : String) :
    Platform → Contents → Prop
  | android, contents => ∃ text, Utf8.decode contents = .ok text ∧ IsLegal text
  | ios, _ => ∃ current, store.read t key = .ok current ∧ (PropertyList.isBinary current = true ∨
      ∀ item ∈ credentials.items, PropertyList.HasNoMark item.1 ∧ PropertyList.HasNoMark item.2)

/-! ## Credentials as items -/

theorem Credentials.hasPlainKeys_items (credentials : Credentials) :
    PropertyList.HasPlainKeys credentials.items := by
  have hkeys : credentials.items.map (·.1) =
      ["StallionProjectId".toList, "StallionAppToken".toList] := rfl
  refine ⟨by rw [hkeys]; decide, fun item hitem => ?_⟩
  have hkey : item.1 ∈ credentials.items.map (·.1) := List.mem_map_of_mem hitem
  rw [hkeys] at hkey
  have hlines : ∀ key ∈ ["StallionProjectId".toList, "StallionAppToken".toList],
      PropertyList.IsOneLine key := by decide
  exact hlines _ hkey

theorem Credentials.isLegal_of_mem_items (credentials : Credentials) {item : Text × Text}
    (hitem : item ∈ credentials.items) : IsLegal item.1 := by
  have hkeys : ∀ key ∈ credentials.items.map (·.1), IsLegal key := by
    have hkeys : credentials.items.map (·.1) =
        ["StallionProjectId".toList, "StallionAppToken".toList] := rfl
    rw [hkeys]
    simp [IsLegal, isForbidden, isSpace]
  exact hkeys _ (List.mem_map_of_mem hitem)

namespace Duty

variable {store : Store} {credentials : Credentials} {t : Tree} {key : String}
  {contents : Contents} {answer : Change → FileResult}

theorem reviseStrings_eq_some
    (h : reviseStrings store credentials t key = .ok ⟨some contents, answer⟩) :
    ∃ current updated, store.textOrNothing t key = .ok current ∧
      StringTable.upsert current credentials.items = .ok updated ∧ updated ≠ current ∧
      contents = Utf8.encode updated := by
  obtain ⟨current, updated, hread, hupdated, hrevision⟩ := reviseResource_eq_ok h
  obtain ⟨hcontents, -⟩ := Revision.mk.inj hrevision
  obtain ⟨hnew, hsome⟩ := Option.ite_none_right_eq_some.1 hcontents.symm
  exact ⟨current, updated, hread, updatedStrings_eq_ok.1 hupdated, hnew,
    (Option.some.inj hsome).symm⟩

theorem reviseProperties_eq_some
    (h : reviseProperties store credentials t key = .ok ⟨some contents, answer⟩) :
    ∃ current, store.read t key = .ok current ∧
      PropertyList.upsert current credentials.items = .ok contents ∧ contents ≠ current := by
  obtain ⟨current, updated, hread, hupdated, hrevision⟩ := reviseResource_eq_ok h
  obtain ⟨hcontents, -⟩ := Revision.mk.inj hrevision
  obtain ⟨hnew, hsome⟩ := Option.ite_none_right_eq_some.1 hcontents.symm
  obtain rfl := Option.some.inj hsome
  exact ⟨current, hread, updatedProperties_eq_ok.1 hupdated, hnew⟩

/-- Strings that are new are accepted again exactly when they are legal and named as names are. -/
theorem accepts_android_iff
    (h : reviseStrings store credentials t key = .ok ⟨some contents, answer⟩) :
    Platform.android.Accepts credentials contents ↔
      Platform.android.FindsSpelled store t key ∧
        Platform.android.Holds store credentials t key contents := by
  obtain ⟨current, updated, hread, hupdated, hnew, rfl⟩ := reviseStrings_eq_some h
  obtain ⟨root, hroot, -⟩ := bind_eq_ok.1 hupdated
  have hagain := StringTable.upsert_again_iff hroot hupdated
  rw [or_iff_right hnew] at hagain
  simp only [Platform.Accepts, Platform.FindsSpelled, Platform.Holds, Utf8.decode_encode, hread,
    Except.ok.injEq, exists_and_left, exists_eq_left', hroot, hagain]
  exact and_comm

theorem accepts_ios_iff
    (h : reviseProperties store credentials t key = .ok ⟨some contents, answer⟩) :
    Platform.ios.Accepts credentials contents ↔
      Platform.ios.FindsSpelled store t key ∧
        Platform.ios.Holds store credentials t key contents := by
  obtain ⟨current, hread, hupdated, hnew⟩ := reviseProperties_eq_some h
  have hagain := PropertyList.upsert_again_iff credentials.hasPlainKeys_items hupdated
  rw [or_iff_right hnew] at hagain
  simp only [Platform.Accepts, Platform.FindsSpelled, Platform.Holds, hread, Except.ok.injEq,
    exists_eq_left', hagain, true_and]

theorem accepts_iff {platform : Platform}
    (h : (ofResource store credentials platform).revise t key = .ok ⟨some contents, answer⟩) :
    platform.Accepts credentials contents ↔
      platform.FindsSpelled store t key ∧ platform.Holds store credentials t key contents := by
  cases platform with
  | android => exact accepts_android_iff h
  | ios => exact accepts_ios_iff h

/-- Legal credentials make what a resource can hold. -/
theorem holds_of_isLegal (hlegal : ∀ item ∈ credentials.items, IsLegal item.2)
    {platform : Platform}
    (h : (ofResource store credentials platform).revise t key = .ok ⟨some contents, answer⟩)
    (hspelled : platform.FindsSpelled store t key) :
    platform.Holds store credentials t key contents := by
  have hitems (item : Text × Text) (hitem : item ∈ credentials.items) :
      IsLegal item.1 ∧ IsLegal item.2 :=
    ⟨credentials.isLegal_of_mem_items hitem, hlegal item hitem⟩
  cases platform with
  | android =>
      obtain ⟨current, updated, hread, hupdated, hnew, rfl⟩ := reviseStrings_eq_some h
      obtain ⟨_, root, hread', hroot, hspelled⟩ := hspelled
      obtain rfl := Except.ok.inj (hread.symm.trans hread')
      refine ⟨updated, Utf8.decode_encode updated, ?_⟩
      exact (StringTable.isLegal_upsert hroot hspelled hitems hupdated).resolve_left hnew
  | ios =>
      obtain ⟨current, hread, -, -⟩ := reviseProperties_eq_some h
      refine ⟨current, hread, .inr fun item hitem => ?_⟩
      obtain ⟨hkey, hvalue⟩ := hitems item hitem
      exact ⟨PropertyList.hasNoMark_of_isLegal fun c hc hbad => by simp [hkey c hc] at hbad,
        PropertyList.hasNoMark_of_isLegal fun c hc hbad => by simp [hvalue c hc] at hbad⟩

end Duty

/-! ## Reports on what is written -/

namespace Project

variable {project : Project} {credentials : Credentials} {config : PatchSettings}
  {duties : List Duty} {t after : Tree} {report final : RunReport} {file : FileReport}

/-- A file in the report of a run is there because of a duty that the run has come to. -/
theorem exists_reaches_of_mem_files
    (hduties : ∀ duty ∈ duties, duty ∈ Duty.all project.store credentials config)
    (hdone : project.performAll duties t report = (.ok final, after)) (hfile : file ∈ final.files) :
    file ∈ report.files ∨ ∃ duty ∈ duties, ∃ before made result note,
      project.Reaches duties t duty before ∧ project.Performance duty before result made ∧
        Note.IsOf note duty result ∧ note.file = file := by
  induction duties generalizing t report with
  | nil =>
      obtain ⟨hreport, -⟩ := Prod.mk.inj hdone
      obtain rfl := Except.ok.inj hreport
      exact .inl hfile
  | cons duty duties ih =>
      obtain ⟨hmem, hothers⟩ := List.forall_mem_cons.1 hduties
      unfold performAll at hdone
      rcases hperform : project.perform duty t with ⟨hindrance | result, between⟩
      · rw [hperform] at hdone
        cases hdone
      rw [hperform] at hdone
      have hperformance := performance_of_perform hperform
      obtain ⟨note, hnote, -⟩ := exists_honest_note hmem hperformance
      rcases ih hothers hdone with hfile | ⟨other, hother, before, made, found, held, hreaches, h⟩
      · rw [hnote] at hfile
        rcases List.mem_append.1 hfile with hfile | hfile
        · exact .inl hfile
        · exact .inr ⟨duty, List.mem_cons_self, t, between, result, note, .first duty duties t,
            hperformance, hnote, (List.mem_singleton.1 hfile).symm⟩
      · exact .inr ⟨other, List.mem_cons_of_mem duty hother, before, made, found, held,
          .later hperform hreaches, h⟩

/-- A resource that a duty reports as written has been written. -/
theorem writes_of_note {duty : Duty} (hduty : duty ∈ Duty.all project.store credentials config)
    {result : FileResult} (h : project.Performance duty t result after) {note : Note}
    (hnote : note.IsOf duty result) (hwritten : note.file.written = true)
    (hresource : note.file.dialect = none) :
    duty = Duty.ofResource project.store credentials note.file.platform ∧
      ∃ contents, project.Writes duty t after note.file.path contents := by
  cases h with
  | lost search =>
      obtain rfl := hnote.unique (isOf_fail_lost duty _ (Duty.careful_of_mem_all hduty).lost)
      cases hwritten
  | hindered place revises =>
      obtain rfl := hnote.unique (isOf_fail_path duty _ _)
      cases hwritten
  | refused place revises saves =>
      obtain rfl := hnote.unique (isOf_fail_path duty _ _)
      cases hwritten
  | @answered key revision change _ place revises saves =>
      obtain ⟨held, hheld, hsame, hduties⟩ := Duty.exists_isOn hduty revises change
      obtain rfl := hnote.unique hheld.isOf
      obtain ⟨platform, rfl⟩ := hduties hresource
      rw [hheld.platform, hheld.path]
      rw [hsame] at hwritten
      refine ⟨by cases platform <;> rfl, ?_⟩
      rcases carryOut_cases saves with ⟨done, hchange, hkept, -⟩ | ⟨contents, hcontents, hreal, hdone⟩
      · obtain rfl := Except.ok.inj hchange
        rw [hkept] at hwritten
        cases hwritten
      · rcases hdone with ⟨fault, -, hchange⟩ | ⟨hsaves, -⟩
        · cases hchange
        · exact ⟨contents, place, ⟨revision.answer, by rw [revises, ← hcontents]⟩, hreal, hsaves⟩

end Project

/-! ## Runs -/

section Runs

variable {root : Path} {credentials : Credentials} {config : PatchSettings} {t before after : Tree}
  {store : Store} {platform : Platform} {key : String} {contents : Contents}

/-- What a run reports as written to a resource, it has written. -/
theorem written_of_report {told : List LogEvent} {report : RunReport} {file : FileReport}
    (hreport : ((runOver root credentials config).run ⟨t, told⟩).1 = .ok report)
    (hfile : file ∈ report.files) (hwritten : file.written = true) (hresource : file.dialect = none) :
    ∃ store before after contents, WritesResource root credentials config t store file.platform
      before after file.path contents := by
  by_cases hgiven : credentials.areGiven = true
  · by_cases hgood : credentials.failure? = none
    · rcases hstore : Store.ofProject t root with fault | store
      · rw [((run_without_root config hgiven hgood hstore).run told).1] at hreport
        cases hreport
      have hends := ends_runOver config hgiven hgood hstore
      rw [(hends.run told).1] at hreport
      rcases @Project.exists_reaches_of_mem_files ⟨store, config.dryRun⟩ _ _ _ _ _ _ _ _
          (fun _ hduty => hduty) (Prod.ext hreport rfl) hfile with
        hnone | ⟨duty, hduty, before, made, result, note, hreaches, hperformance, hnote, rfl⟩
      · cases hnone
      obtain ⟨hsame, contents, hwrites⟩ :=
        Project.writes_of_note hduty hperformance hnote hwritten hresource
      subst hsame
      exact ⟨store, before, made, contents, hgiven, hgood, hstore, hreaches, hwrites⟩
    · rw [((run_with_malformed_token hgiven hgood).run told).1] at hreport
      cases hreport
  · rw [((run_without_credentials (Bool.eq_false_iff.2 hgiven)).run told).1] at hreport
    obtain rfl := Except.ok.inj hreport
    cases hfile

/-- A resource that a run writes is accepted again exactly when strings that were found are named as
names are spelled and what is written is what it can hold; and legal credentials make it that. -/
theorem accepted_again_iff (hwrites : WritesResource root credentials config t store platform before
    after key contents) :
    (platform.Accepts credentials contents ↔
      platform.FindsSpelled store before key ∧
        platform.Holds store credentials before key contents) ∧
    ((∀ item ∈ credentials.items, IsLegal item.2) →
      (platform.Accepts credentials contents ↔ platform.FindsSpelled store before key)) := by
  obtain ⟨answer, hrevision⟩ := hwrites.writes.revises
  have haccepts := Duty.accepts_iff hrevision
  refine ⟨haccepts, fun hlegal => haccepts.trans ?_⟩
  exact and_iff_left_of_imp (Duty.holds_of_isLegal hlegal hrevision)

/-- A project without files is given its strings. -/
theorem writesResource_emptyProject {credentials : Credentials} (hgiven : credentials.areGiven = true)
    (hgood : credentials.failure? = none) :
    let contents := Utf8.encode (StringTable.write []
      (StringTable.setAll credentials.items StringTable.emptyRoot))
    WritesResource ⟨["project".toList]⟩ credentials ⟨true, false, false⟩ emptyProject
      ⟨⟨["project".toList]⟩⟩ .android emptyProject (projectWithStrings contents)
      Location.stringTableKey contents := by
  intro contents
  refine ⟨hgiven, hgood, by cbv, .first _ _ _, rfl, ⟨_, reviseStrings_emptyProject credentials⟩,
    rfl, write_emptyProject contents⟩

/-- Legal credentials with markup in them. -/
def markedCredentials : Credentials := ⟨some "]]>&amp;<b", some "spb_\"'>"⟩

theorem accepted_again_markedCredentials :
    let contents := Utf8.encode (StringTable.write []
      (StringTable.setAll markedCredentials.items StringTable.emptyRoot))
    WritesResource ⟨["project".toList]⟩ markedCredentials ⟨true, false, false⟩ emptyProject
        ⟨⟨["project".toList]⟩⟩ .android emptyProject (projectWithStrings contents)
        Location.stringTableKey contents ∧
      Platform.android.Accepts markedCredentials contents := by
  intro contents
  have hwrites : WritesResource _ markedCredentials _ _ _ _ _ _ _ contents :=
    writesResource_emptyProject (by decide) (by decide)
  refine ⟨hwrites, ((accepted_again_iff hwrites).2 ?_).2 ?_⟩
  · simp [Credentials.items, markedCredentials, IsLegal, isForbidden, isSpace]
  · have hspelled : StringTable.emptyRoot.IsSpelled := by decide
    exact ⟨[], _, textOrNothing_emptyProject, rfl, hspelled⟩

/-- Credentials that no document may hold. -/
def controlCredentials : Credentials := ⟨some "\x01", some "spb_t"⟩

/-- They are given and begin as they should, and are written all the same. -/
theorem written_and_refused_controlCredentials :
    let contents := Utf8.encode (StringTable.write []
      (StringTable.setAll controlCredentials.items StringTable.emptyRoot))
    WritesResource ⟨["project".toList]⟩ controlCredentials ⟨true, false, false⟩ emptyProject
        ⟨⟨["project".toList]⟩⟩ .android emptyProject (projectWithStrings contents)
        Location.stringTableKey contents ∧
      ¬Platform.android.Accepts controlCredentials contents := by
  intro contents
  refine ⟨writesResource_emptyProject (by decide) (by decide), ?_⟩
  rintro ⟨text, updated, hdecode, hupdated⟩
  rw [Utf8.decode_encode] at hdecode
  obtain rfl := Except.ok.inj hdecode
  have hrefused : (StringTable.upsert (StringTable.write []
      (StringTable.setAll controlCredentials.items StringTable.emptyRoot))
      controlCredentials.items).isOk = false := by decide +kernel
  rw [hupdated] at hrefused
  cases hrefused

end Runs

end BundleHook
