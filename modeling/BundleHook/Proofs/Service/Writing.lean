import BundleHook.Proofs.Entry.Settling
import BundleHook.Proofs.Service.Duty
import BundleHook.Proofs.Service.Location
import BundleHook.Proofs.Text.Utf8

/-!
# What doing a duty writes

In a plain project a duty reports on one file. Either it changes no file at all, or it gives that
file the contents that are due to it; and it says that it has written something exactly when it has.
-/

namespace BundleHook

open Glob (pathAt)

/-- The contents that are due to a file of a platform, worked out from what the project holds. -/
inductive Due (store : Store) (credentials : Credentials) (t : Tree) :
    Platform → String → Contents → Prop where
  | stringTable {current updated : Text}
      (reads : Utf8.decode ((t.fileAt (store.placeOf Location.stringTableKey)).getD []) =
        .ok current)
      (updates : StringTable.upsert current credentials.items = .ok updated) :
      Due store credentials t .android Location.stringTableKey (Utf8.encode updated)
  | propertyList {key : String} {current updated : Contents}
      (located : Location.ofPropertyList store t = .ok key)
      (reads : t.fileAt (store.placeOf key) = some current)
      (updates : PropertyList.upsert current credentials.items = .ok updated) :
      Due store credentials t .ios key updated
  | entryFile {platform : Platform} {key : String} {octets : Contents} {text : Text}
      (located : Location.ofEntryFile store t platform = .ok key)
      (reads : t.fileAt (store.placeOf key) = some octets)
      (decodes : Utf8.decode octets = .ok text) :
      Due store credentials t platform key
        (Utf8.encode (Outcome.ofEntry platform key text).contents)

/-- What is due to a file that has not changed in a growing project was due to it before. -/
theorem Due.of_grows {store : Store} {credentials : Credentials} {t after : Tree}
    (h : t.Plain store.root) (hafter : after.Plain store.root)
    (hgrows : Tree.Grows store.root Location.stringTableNames t after) {platform : Platform}
    {key : String} {contents : Contents}
    (hsame : after.fileAt (store.placeOf key) = t.fileAt (store.placeOf key))
    (hdue : Due store credentials after platform key contents) :
    Due store credentials t platform key contents := by
  cases hdue with
  | stringTable reads updates => exact .stringTable (hsame ▸ reads) updates
  | propertyList located reads updates =>
      exact .propertyList (Location.ofPropertyList_of_grows h hafter hgrows located)
        (hsame ▸ reads) updates
  | entryFile located reads decodes =>
      exact .entryFile (Location.ofEntryFile_of_grows h hafter hgrows located) (hsame ▸ reads)
        decodes

/-! ## Outcomes -/

namespace Outcome

variable {platform : Platform} {fileName : String} {t : Text}

theorem fileName_ofEntry (platform : Platform) (fileName : String) (t : Text) :
    (ofEntry platform fileName t).fileName = fileName := by
  have hdecides := decides_ofEntry platform fileName t
  generalize ofEntry platform fileName t = outcome at hdecides
  cases hdecides <;> rfl

theorem contents_ne_of_changed (h : (ofEntry platform fileName t).changed = true) :
    (ofEntry platform fileName t).contents ≠ t := by
  obtain ⟨habsent, hinstalled⟩ := isInstalled_of_changed h
  intro heq
  rw [heq, habsent] at hinstalled
  cases hinstalled

theorem status_of_changed (h : (ofEntry platform fileName t).changed = true) :
    (ofEntry platform fileName t).status = .patched := by
  have hdecides := decides_ofEntry platform fileName t
  generalize ofEntry platform fileName t = outcome at hdecides h ⊢
  cases hdecides with
  | installed => cases h
  | refused => cases h
  | patched => rfl

/-- A text that is not recognized is refused with a warning about its file. -/
theorem refused_of_unrecognized (h : (ofEntry platform fileName t).status = .unrecognized) :
    (ofEntry platform fileName t).changed = false ∧
      ∃ message, (ofEntry platform fileName t).diagnostics = [⟨.warning, fileName, message⟩] := by
  have hdecides := decides_ofEntry platform fileName t
  generalize ofEntry platform fileName t = outcome at hdecides h ⊢
  cases hdecides with
  | installed => cases h
  | refused dialect why => exact ⟨rfl, _, rfl⟩
  | patched => cases h

end Outcome

/-! ## Reports -/

/-- The answer is a report on a file. -/
def Answers (answer : FileResult) (file : FileReport) : Prop :=
  answer.success = true ∧ answer.data = some file

theorem files_add_of_answers {answer : FileResult} {file : FileReport} (h : Answers answer file)
    (report : RunReport) (platform : Platform) (name : String) :
    (report.add platform name answer).files = report.files ++ [file] := by
  unfold RunReport.add
  rw [if_pos h.1, h.2]
  rfl

theorem answers_answer (resource : Resource) (key : String) (change : Change) :
    Answers (resource.answer key change) ⟨resource.platform, key,
      if change.changed then .patched else .unchanged, none, change.written⟩ :=
  ⟨rfl, rfl⟩

theorem answers_entryResult (report : FileReport) (diagnostics : List Diagnostic) :
    Answers (Project.entryResult report diagnostics) report := by
  unfold Project.entryResult
  split <;> exact ⟨rfl, rfl⟩

theorem answers_entry (platform : Platform) (key : String) (text : Text) (written : Bool) :
    let outcome := Outcome.ofEntry platform key text
    Answers (Project.entryResult (outcome.report platform written) outcome.diagnostics)
      ⟨platform, key, outcome.status, some outcome.dialect.label, written⟩ := by
  intro outcome
  have hreport : outcome.report platform written =
      ⟨platform, key, outcome.status, some outcome.dialect.label, written⟩ := by
    rw [Outcome.report, Outcome.fileName_ofEntry]
  rw [← hreport]
  exact answers_entryResult _ outcome.diagnostics

/-- A failure at a key is reported on the file at that key. -/
theorem files_add_fail_path (report : RunReport) (platform : Platform) (name error key : String) :
    (report.add platform name (.fail error (.path key))).files =
      report.files ++ [⟨platform, key, .unrecognized, none, false⟩] := rfl

/-- A file without a key is reported by its name. -/
theorem files_add_fail_lost (report : RunReport) (platform : Platform) (name error : String)
    {lost : Detail} (hlost : ∀ key, lost ≠ .path key) :
    (report.add platform name (.fail error lost)).files =
      report.files ++ [⟨platform, name, .missing, none, false⟩] := by
  cases lost with
  | path key => exact absurd rfl (hlost key)
  | _ => rfl

/-! ## Revisions -/

/-- The revision reports on the file at the key, and the contents that it has for that file are due
to it and new. A file that is not there yet gets contents only in the place of the table of
strings. -/
structure Revises (store : Store) (credentials : Credentials) (t : Tree) (platform : Platform)
    (key : String) (revision : Revision) : Prop where
  answers : ∀ change, ∃ status dialect,
    Answers (revision.answer change) ⟨platform, key, status, dialect, change.written⟩ ∧
      (revision.contents.isSome = true → change.changed = true → status = .patched)
  news : ∀ contents, revision.contents = some contents →
    Due store credentials t platform key contents ∧
      t.fileAt (store.placeOf key) ≠ some contents ∧
      (store.placeOf key = pathAt store.root Location.stringTableNames ∨
        (t.fileAt (store.placeOf key)).isSome = true)

namespace Duty

variable {store : Store} {credentials : Credentials} {t : Tree}

/-- A resource that is patched has been changed. -/
theorem status_answer {resource : Resource} {key : String} {contents : Option Contents}
    (change : Change) : ∃ status dialect,
      Answers (resource.answer key change)
        ⟨resource.platform, key, status, dialect, change.written⟩ ∧
      (contents.isSome = true → change.changed = true → status = .patched) :=
  ⟨_, _, answers_answer resource key change, fun _ hchanged => if_pos hchanged⟩

theorem updatedStrings_eq_ok {current updated : Text} :
    Project.updatedStrings current credentials = .ok updated ↔
      StringTable.upsert current credentials.items = .ok updated := by
  unfold Project.updatedStrings
  rcases StringTable.upsert current credentials.items with flaw | other <;> simp [Except.mapError]

theorem updatedProperties_eq_ok {current updated : Contents} :
    Project.updatedProperties current credentials = .ok updated ↔
      PropertyList.upsert current credentials.items = .ok updated := by
  unfold Project.updatedProperties
  rcases PropertyList.upsert current credentials.items with problem | other <;>
    simp [Except.mapError]

section Plain

variable (h : t.Plain store.root) {names : List Text} (hspells : Store.Spells names)
  (hne : names ≠ [])

include h hspells hne

/-- A text that is read is what the file at the place of its key holds. -/
theorem decode_of_readAsText {text : Text}
    (hread : store.readAsText t (Store.keyOf names) = .ok text) :
    ∃ octets, t.fileAt (store.placeOf (Store.keyOf names)) = some octets ∧
      Utf8.decode octets = .ok text := by
  rw [Store.placeOf_keyOf hspells hne]
  rcases hoctets : store.read t (Store.keyOf names) with fault | octets
  · rw [Store.readAsText_of_read_error hoctets] at hread
    cases hread
  · refine ⟨octets, Store.fileAt_of_read hspells hne h hoctets, ?_⟩
    rw [Store.readAsText_of_read hoctets] at hread
    rcases hdecode : Utf8.decode octets with flaw | other
    · rw [hdecode] at hread
      cases hread
    · rw [hdecode] at hread
      exact congrArg Except.ok (Except.ok.inj hread)

/-- A text that may be missing is read as nothing when no file is there. -/
theorem decode_of_textOrNothing {text : Text}
    (hread : store.textOrNothing t (Store.keyOf names) = .ok text) :
    Utf8.decode ((t.fileAt (store.placeOf (Store.keyOf names))).getD []) = .ok text := by
  unfold Store.textOrNothing at hread
  obtain ⟨there, hhas, hread⟩ := Glob.bind_eq_ok.1 hread
  cases there with
  | true =>
      obtain ⟨octets, hfile, hdecode⟩ := decode_of_readAsText h hspells hne hread
      rw [hfile]
      exact hdecode
  | false =>
      obtain rfl : [] = text := Except.ok.inj hread
      rw [Store.has_keyOf hspells hne h] at hhas
      split at hhas
      · cases hhas
      · have hnone := Option.not_isSome_iff_eq_none.1 (Bool.eq_false_iff.1 (Except.ok.inj hhas))
        rw [Store.placeOf_keyOf hspells hne, Tree.fileAt, hnone]
        rfl

end Plain

/-- The table of strings is revised with what is due to it. -/
theorem revises_stringTable (h : t.Plain store.root) {revision : Revision}
    (hrevision : reviseStrings store credentials t Location.stringTableKey = .ok revision) :
    Revises store credentials t .android Location.stringTableKey revision := by
  obtain ⟨current, updated, hread, hupdate, rfl⟩ := reviseResource_eq_ok hrevision
  have hspells := Location.spells_stringTableNames
  have hne : Location.stringTableNames ≠ [] := List.cons_ne_nil _ _
  have hplace : store.placeOf Location.stringTableKey =
      pathAt store.root Location.stringTableNames := by
    rw [Location.stringTableKey_eq, Store.placeOf_keyOf hspells hne]
  have hdecode := decode_of_textOrNothing h hspells hne (Location.stringTableKey_eq ▸ hread)
  rw [← Location.stringTableKey_eq] at hdecode
  refine ⟨status_answer, fun contents hcontents => ?_⟩
  obtain ⟨hchanged, hsome⟩ := Option.ite_none_right_eq_some.1 hcontents
  obtain rfl := Option.some.inj hsome
  refine ⟨.stringTable hdecode (updatedStrings_eq_ok.1 hupdate), fun hsame => ?_, .inl hplace⟩
  rw [hsame, Option.getD_some, Utf8.decode_encode] at hdecode
  exact hchanged (Except.ok.inj hdecode)

/-- The property list is revised with what is due to it. -/
theorem revises_propertyList (h : t.Plain store.root) {key : String}
    (hkey : Location.ofPropertyList store t = .ok key) {revision : Revision}
    (hrevision : reviseProperties store credentials t key = .ok revision) :
    Revises store credentials t .ios key revision := by
  obtain ⟨current, updated, hread, hupdate, rfl⟩ := reviseResource_eq_ok hrevision
  obtain ⟨above, last, rfl, hspells, -⟩ := Location.spelled_ofPropertyList h hkey
  have hne : above ++ [last] ≠ [] := by simp
  have hfile := Store.fileAt_of_read hspells hne h hread
  rw [← Store.placeOf_keyOf hspells hne] at hfile
  refine ⟨status_answer, fun contents hcontents => ?_⟩
  obtain ⟨hchanged, hsome⟩ := Option.ite_none_right_eq_some.1 hcontents
  obtain rfl := Option.some.inj hsome
  refine ⟨.propertyList hkey hfile (updatedProperties_eq_ok.1 hupdate), fun hsame => ?_,
    .inr (by rw [hfile]; rfl)⟩
  rw [hfile] at hsame
  exact hchanged (Option.some.inj hsame).symm

/-- An entry file is revised with what is due to it. -/
theorem revises_entryFile (h : t.Plain store.root) {platform : Platform} {key : String}
    (hkey : Location.ofEntryFile store t platform = .ok key) {revision : Revision}
    (hrevision : reviseEntry store platform t key = .ok revision) :
    Revises store credentials t platform key revision := by
  obtain ⟨above, last, rfl, hspells, -⟩ := Location.spelled_ofEntryFile h hkey
  have hne : above ++ [last] ≠ [] := by simp
  rcases hread : store.readAsText t (Store.keyOf (above ++ [last])) with fault | text
  · rw [reviseEntry_of_fault hread] at hrevision
    cases hrevision
  rw [reviseEntry_of_text hread] at hrevision
  obtain rfl := Except.ok.inj hrevision
  obtain ⟨octets, hfile, hdecode⟩ := decode_of_readAsText h hspells hne hread
  refine ⟨fun change => ⟨_, _, answers_entry platform _ text change.written, fun hsome _ => ?_⟩,
    fun contents hcontents => ?_⟩
  · exact Outcome.status_of_changed (Option.isSome_ite.1 hsome)
  obtain ⟨hchanged, hsome⟩ := Option.ite_none_right_eq_some.1 hcontents
  obtain rfl := Option.some.inj hsome
  refine ⟨.entryFile hkey hfile hdecode, fun hsame => ?_, .inr (by rw [hfile]; rfl)⟩
  rw [hfile] at hsame
  rw [Option.some.inj hsame, Utf8.decode_encode] at hdecode
  exact Outcome.contents_ne_of_changed hchanged (Except.ok.inj hdecode)

/-- In a plain project the duty finds its file under a key that ends with the file's name, and
revises it with what is due to it. -/
structure Careful (store : Store) (credentials : Credentials) (duty : Duty) : Prop where
  lost : ∀ key, duty.lost ≠ .path key
  isName : Path.IsPlain duty.name.toList
  spelled : ∀ t key, t.Plain store.root → duty.place t = .ok key → Location.Spelled duty.name key
  revises : ∀ t key revision, t.Plain store.root → duty.place t = .ok key →
    duty.revise t key = .ok revision → Revises store credentials t duty.platform key revision

theorem careful_of_mem_all {config : PatchSettings} {duty : Duty}
    (h : duty ∈ all store credentials config) : duty.Careful store credentials := by
  obtain ⟨platform, -, hduty⟩ := List.mem_flatMap.1 h
  rcases List.mem_cons.1 hduty with rfl | hentry
  · cases platform with
    | android =>
        have hname : Path.IsPlain "strings.xml".toList := by decide
        refine ⟨fun _ hlost => ?_, hname, fun t key _ hkey => ?_,
          fun t key revision hplain hkey => ?_⟩
        · cases hlost
        · obtain rfl := Except.ok.inj hkey
          exact Location.spelled_stringTable
        · obtain rfl := Except.ok.inj hkey
          exact revises_stringTable hplain
    | ios =>
        have hname : Path.IsPlain "Info.plist".toList := by decide
        refine ⟨fun _ hlost => ?_, hname,
          fun t key hplain => Location.spelled_ofPropertyList hplain,
          fun t key revision hplain hkey => revises_propertyList hplain hkey⟩
        cases hlost
  · obtain rfl := List.mem_singleton.1 hentry
    have hname : Path.IsPlain platform.entryName.toList := by
      cases platform <;> decide
    refine ⟨fun _ hlost => ?_, hname, fun t key hplain => Location.spelled_ofEntryFile hplain,
      fun t key revision hplain hkey => revises_entryFile hplain hkey⟩
    cases hlost

end Duty

/-! ## Doing a duty -/

/-- What doing a duty comes to, with the report on its file: no file has changed, or that file alone
has the contents due to it, which it had not before. -/
structure Performed (store : Store) (credentials : Credentials) (duty : Duty) (t after : Tree)
    (file : FileReport) : Prop where
  platform : file.platform = duty.platform
  named : duty.name.toList <+: (store.placeOf file.path).name
  plain : after.Plain store.root
  grows : Tree.Grows store.root Location.stringTableNames t after
  kept : file.written = false → ∀ p, after.fileAt p = t.fileAt p
  wrote : file.written = true → file.status = .patched ∧ ∃ contents,
    Due store credentials t file.platform file.path contents ∧
      t.fileAt (store.placeOf file.path) ≠ some contents ∧
      ∀ p, after.fileAt p = if p = store.placeOf file.path then some contents else t.fileAt p

namespace Performed

variable {store : Store} {credentials : Credentials} {duty : Duty} {t after : Tree}
  {file : FileReport} (h : Performed store credentials duty t after file)

include h

theorem elsewhere {p : Path} (hp : p ≠ store.placeOf file.path) :
    after.fileAt p = t.fileAt p := by
  rcases hwritten : file.written with _ | _
  · exact h.kept hwritten p
  · obtain ⟨-, contents, -, -, hfiles⟩ := h.wrote hwritten
    rw [hfiles p, if_neg hp]

/-- The file that a duty is about changes exactly when it is reported as written. -/
theorem changed_iff :
    after.fileAt (store.placeOf file.path) ≠ t.fileAt (store.placeOf file.path) ↔
      file.written = true := by
  rcases hwritten : file.written with _ | _
  · simp [h.kept hwritten]
  · obtain ⟨-, contents, -, hnew, hfiles⟩ := h.wrote hwritten
    rw [hfiles, if_pos rfl]
    simp [hnew.symm]

end Performed

namespace Project

variable {project : Project} {credentials : Credentials} {duty : Duty} {t after : Tree}

theorem name_placeOf_spelled {store : Store} {name key : String} (h : Location.Spelled name key) :
    name.toList <+: (store.placeOf key).name := by
  obtain ⟨above, last, rfl, hspells, hname⟩ := h
  rw [Store.placeOf_keyOf hspells (by simp)]
  simpa [Path.name, pathAt] using hname

theorem name_placeOf_isPlain {store : Store} {name : String} (h : Path.IsPlain name.toList) :
    (store.placeOf name).name = name.toList := by
  rw [Store.placeOf, Path.ofText_of_not_mem h.noSlash, if_neg (by simp [h.isStep.1])]
  simp [Path.name, Path.child]

section Doing

variable (hplain : t.Plain project.store.root)

include hplain

/-- A duty that changes nothing. -/
theorem performed_of_unchanged {file : FileReport} (hplatform : file.platform = duty.platform)
    (hnamed : duty.name.toList <+: (project.store.placeOf file.path).name)
    (hwritten : file.written = false) : Performed project.store credentials duty t t file :=
  ⟨hplatform, hnamed, hplain, .refl _ _ t, fun _ _ => rfl, fun h => by rw [hwritten] at h; cases h⟩

/-- Writing a file that is there, or the table of strings, keeps the project plain and changes that
file alone, and nothing when it is refused. -/
theorem write_spelled {name key : String} (hspelled : Location.Spelled name key)
    (hthere : project.store.placeOf key = pathAt project.store.root Location.stringTableNames ∨
      (t.fileAt (project.store.placeOf key)).isSome = true)
    {contents : Contents} {fault : Option StoreFault}
    (hwrite : project.store.write t key contents = (fault, after)) :
    after.Plain project.store.root ∧
      Tree.Grows project.store.root Location.stringTableNames t after ∧
      ∀ p, after.fileAt p =
        if fault.isNone ∧ p = project.store.placeOf key then some contents else t.fileAt p := by
  obtain ⟨above, last, rfl, hspells, -⟩ := hspelled
  have hne : above ++ [last] ≠ [] := by simp
  obtain ⟨hafter, hgrows, hfiles⟩ := Store.write_keyOf hspells hne hplain hwrite
  rw [Store.placeOf_keyOf hspells hne] at hthere ⊢
  refine ⟨hafter, ?_, hfiles⟩
  rcases hthere with hnames | hfile
  · rwa [← Tree.pathAt_inj.1 hnames]
  · obtain ⟨held, hheld⟩ := Option.isSome_iff_exists.1 hfile
    exact hplain.grows_of_entry (Tree.fileAt_eq_some.1 hheld) hgrows _

/-- What carrying out a revision comes to, whether it is refused or not. -/
theorem carryOut_spelled {key : String} (hspelled : Location.Spelled duty.name key)
    {revision : Revision}
    (hrevises : Revises project.store credentials t duty.platform key revision)
    {change : Except Hindrance Change}
    (hcarried : project.carryOut t key revision.contents = (change, after)) :
    (∀ hindrance, change = .error hindrance → Performed project.store credentials duty t after
        ⟨duty.platform, key, .unrecognized, none, false⟩) ∧
      ∀ done, change = .ok done → ∃ file, Answers (revision.answer done) file ∧
        Performed project.store credentials duty t after file := by
  have hnamed : duty.name.toList <+: (project.store.placeOf key).name :=
    name_placeOf_spelled hspelled
  rcases carryOut_cases hcarried with ⟨done, rfl, hkept, rfl⟩ | ⟨contents, hcontents, -, hwrote⟩
  · obtain ⟨status, dialect, hanswers, -⟩ := hrevises.answers done
    refine ⟨by simp, ?_⟩
    rintro _ ⟨⟩
    exact ⟨_, hanswers, performed_of_unchanged hplain rfl hnamed hkept⟩
  obtain ⟨hdue, hnew, hthere⟩ := hrevises.news contents hcontents
  rcases hwrote with ⟨fault, hwrite, rfl⟩ | ⟨hwrite, rfl⟩
  · obtain ⟨hafter, hgrows, hfiles⟩ := write_spelled hplain hspelled hthere hwrite
    refine ⟨fun _ _ => ?_, by simp⟩
    exact ⟨rfl, hnamed, hafter, hgrows, fun _ p => by simpa using hfiles p, by simp⟩
  · obtain ⟨hafter, hgrows, hfiles⟩ := write_spelled hplain hspelled hthere hwrite
    obtain ⟨status, dialect, hanswers, hstatus⟩ := hrevises.answers ⟨true, true⟩
    refine ⟨by simp, ?_⟩
    rintro _ ⟨⟩
    refine ⟨_, hanswers, rfl, hnamed, hafter, hgrows, by simp, fun _ => ?_⟩
    exact ⟨hstatus (by rw [hcontents]; rfl) rfl, contents, hdue, hnew,
      fun p => by simpa using hfiles p⟩

end Doing

/-- In a plain project a duty reports on one file, and no other file changes. -/
theorem performed_of_careful (hcareful : duty.Careful project.store credentials)
    (hplain : t.Plain project.store.root) {result : FileResult}
    (hdone : project.perform duty t = (.ok result, after)) :
    ∃ file, (∀ report : RunReport,
        (report.add duty.platform duty.name result).files = report.files ++ [file]) ∧
      Performed project.store credentials duty t after file := by
  cases performance_of_perform hdone with
  | lost search =>
      refine ⟨_, fun report => files_add_fail_lost report _ _ _ hcareful.lost,
        performed_of_unchanged hplain rfl ?_ rfl⟩
      rewrite [name_placeOf_isPlain hcareful.isName]
      exact List.prefix_refl _
  | @hindered key hindrance place revises =>
      exact ⟨_, fun report => files_add_fail_path report _ _ _ key,
        performed_of_unchanged hplain rfl
          (name_placeOf_spelled (hcareful.spelled t key hplain place)) rfl⟩
  | @refused key revision hindrance _ place revises saves =>
      have hspelled := hcareful.spelled t key hplain place
      have hrevises := hcareful.revises t key revision hplain place revises
      exact ⟨_, fun report => files_add_fail_path report _ _ _ key,
        (carryOut_spelled hplain hspelled hrevises saves).1 hindrance rfl⟩
  | @answered key revision change _ place revises saves =>
      have hspelled := hcareful.spelled t key hplain place
      have hrevises := hcareful.revises t key revision hplain place revises
      obtain ⟨file, hanswers, hperformed⟩ :=
        (carryOut_spelled hplain hspelled hrevises saves).2 change rfl
      exact ⟨file, fun report => files_add_of_answers hanswers report _ _, hperformed⟩

end Project

end BundleHook
