import BundleHook.Proofs.Entries
import BundleHook.Proofs.Service.Effect

/-!
# What a run reports

Every duty of a run leaves a note: one report, and messages about its file. The report is on the
file that the search found in the project before the run, or goes by the name of the missing file. A
file that could not be dealt with has a warning of its own, and no message is about anything else.
The status of an entry file tells whether the text that the run leaves there has its hook.

* `Note.IsHonest` — what holds of the note of a duty;
* `Episode` — a duty as a part of a run;
* `reports_of_run` — the report of a run as a whole.
-/

namespace BundleHook

open Project

/-! ## Messages about an entry file -/

namespace Outcome

/-- All messages are about the file. -/
def Owned (outcome : Outcome) : Prop :=
  ∀ diagnostic ∈ outcome.diagnostics, diagnostic.fileName = outcome.fileName

variable (fileName : String) (dialect : Dialect) (t : Text)

theorem owned_installed : (installed fileName dialect t).Owned := List.forall_mem_nil _

theorem owned_refused (why : Difficulty) : (refused fileName dialect t why).Owned :=
  List.forall_mem_singleton.2 rfl

theorem owned_ofInstaller (installer : Installer) :
    (ofInstaller fileName dialect installer t).Owned := by
  unfold ofInstaller
  simp only
  split
  · exact owned_refused fileName dialect t _
  · exact List.forall_mem_nil _

theorem owned_ofGuesses (guesses : List (String × Installer)) :
    (ofGuesses fileName t guesses).Owned := by
  induction guesses with
  | nil => exact owned_refused fileName _ t _
  | cons guess others ih =>
      obtain ⟨language, installer⟩ := guess
      unfold ofGuesses
      simp only
      split
      · exact ih
      · exact List.forall_mem_singleton.2 rfl

theorem owned_ofEntry (platform : Platform) : (ofEntry platform fileName t).Owned := by
  cases platform with
  | android =>
      simp only [ofEntry, ofMainApplication]
      split
      · exact owned_installed fileName _ t
      · split
        · exact owned_ofInstaller fileName _ t _
        · exact owned_refused fileName _ t _
  | ios =>
      simp only [ofEntry, ofAppDelegate]
      split
      · exact owned_installed fileName _ t
      · split
        · exact owned_ofInstaller fileName _ t _
        · exact owned_ofGuesses fileName t _

theorem status_ne_missing (outcome : Outcome) : outcome.status ≠ .missing := by
  unfold status
  split
  · simp
  · split <;> simp

/-- Of a text that is not changed, the status tells whether it has the hook. -/
theorem isInstalled_iff_of_not_changed {fileName : String} {t : Text} {platform : Platform}
    (h : (ofEntry platform fileName t).changed = false) :
    platform.isInstalled t = true ↔ (ofEntry platform fileName t).status = .patched ∨
      (ofEntry platform fileName t).status = .unchanged := by
  have hdecides := decides_ofEntry platform fileName t
  generalize ofEntry platform fileName t = outcome at hdecides h ⊢
  cases hdecides with
  | installed dialect here => simp [here, status, installed]
  | refused dialect why absent => simp [absent, status, refused]
  | patched => cases h

end Outcome

/-! ## Notes -/

/-- What a duty adds to the report of a run. -/
structure Note where
  file : FileReport
  diagnostics : List Diagnostic

def RunReport.withNotes (report : RunReport) (notes : List Note) : RunReport :=
  { report with
    files := report.files ++ notes.map Note.file
    diagnostics := report.diagnostics ++ notes.flatMap Note.diagnostics }

/-- The result of the duty goes into reports as the note. -/
def Note.IsOf (note : Note) (duty : Duty) (result : FileResult) : Prop :=
  ∀ report : RunReport, report.add duty.platform duty.name result = report.withNotes [note]

/-- The report is on the file that the duty finds; when there is none, it goes by the name of the
file. -/
def Duty.IsAbout (duty : Duty) (t : Tree) (file : FileReport) : Prop :=
  file.platform = duty.platform ∧
    (duty.place t = .ok file.path ∧ file.status ≠ .missing ∨
      (∃ failure, duty.place t = .error (.failure failure)) ∧ file.path = duty.name ∧
        file.status = .missing)

/-- The file without a patch has a warning, and all messages are about the file. -/
structure Note.Warns (note : Note) : Prop where
  warned : note.file.status = .unrecognized ∨ note.file.status = .missing →
    ∃ warning ∈ warningsOf note.diagnostics, warning.fileName = note.file.path
  owned : ∀ diagnostic ∈ note.diagnostics, diagnostic.fileName = note.file.path

theorem Note.warns_of_warning {file : FileReport} (message : String) :
    Note.Warns ⟨file, [⟨.warning, file.path, message⟩]⟩ :=
  ⟨fun _ => ⟨_, List.mem_singleton_self _, rfl⟩, List.forall_mem_singleton.2 rfl⟩

theorem isOf_fail_path (duty : Duty) (error key : String) :
    Note.IsOf ⟨⟨duty.platform, key, .unrecognized, none, false⟩, [⟨.warning, key, error⟩]⟩ duty
      (.fail error (.path key)) := fun _ => rfl

theorem isOf_fail_lost (duty : Duty) (error : String) (hlost : ∀ key, duty.lost ≠ .path key) :
    Note.IsOf ⟨⟨duty.platform, duty.name, .missing, none, false⟩,
      [⟨.warning, duty.name, error⟩]⟩ duty (.fail error duty.lost) := by
  intro report
  cases hdetail : duty.lost with
  | path key => exact absurd hdetail (hlost key)
  | _ => rfl

/-! ### Notes of answers -/

/-- The answer is a note on the file at the key. -/
structure Note.IsOn (note : Note) (duty : Duty) (key : String) (answer : FileResult) : Prop where
  isOf : note.IsOf duty answer
  platform : note.file.platform = duty.platform
  path : note.file.path = key
  found : note.file.status ≠ .missing
  warns : note.Warns

namespace Duty

variable {store : Store} {credentials : Credentials} {t : Tree} {key : String}
  {revision : Revision}

theorem isOn_resource {resource : Resource} {duty : Duty}
    (hplatform : resource.platform = duty.platform) (key : String) (change : Change) :
    Note.IsOn ⟨⟨resource.platform, key, if change.changed then .patched else .unchanged, none,
      change.written⟩, []⟩ duty key (resource.answer key change) := by
  refine ⟨fun report => rfl, hplatform, rfl, ?_, ?_, List.forall_mem_nil _⟩
  · simp only
    split <;> simp
  · simp only
    split <;> simp

theorem isOn_entry (platform : Platform) (key : String) (text : Text) (written : Bool) :
    let outcome := Outcome.ofEntry platform key text
    Note.IsOn ⟨outcome.report platform written, outcome.diagnostics⟩ (ofEntry store platform) key
      (entryResult (outcome.report platform written) outcome.diagnostics) := by
  intro outcome
  have hname : outcome.fileName = key := Outcome.fileName_ofEntry platform key text
  refine ⟨fun report => ?_, rfl, hname, outcome.status_ne_missing, fun hstatus => ?_,
    Outcome.owned_ofEntry key text platform⟩
  · unfold entryResult
    split <;> simp [RunReport.add, RunReport.withNotes, ServiceAnswer.ok, ServiceAnswer.okWith]
  · have hunrecognized := hstatus.resolve_right outcome.status_ne_missing
    obtain ⟨-, message, hmessage⟩ := Outcome.refused_of_unrecognized hunrecognized
    refine ⟨⟨.warning, key, message⟩, ?_, hname.symm⟩
    simp only [outcome, hmessage]
    exact List.mem_singleton_self _

/-- Whatever is answered about a file is a note on it, which says whether the file was written. Only
a resource has no dialect. -/
theorem exists_isOn {config : PatchSettings} {duty : Duty}
    (hduty : duty ∈ all store credentials config) (hrevise : duty.revise t key = .ok revision)
    (change : Change) : ∃ note : Note, note.IsOn duty key (revision.answer change) ∧
      note.file.written = change.written ∧ (note.file.dialect = none →
        ∃ platform, duty = ofResource store credentials platform) := by
  obtain ⟨platform, -, hmem⟩ := List.mem_flatMap.1 hduty
  rcases List.mem_cons.1 hmem with rfl | hentry
  · cases platform with
    | android =>
        obtain ⟨current, updated, -, -, rfl⟩ := reviseResource_eq_ok hrevise
        exact ⟨_, isOn_resource rfl key change, rfl, fun _ => ⟨.android, rfl⟩⟩
    | ios =>
        obtain ⟨current, updated, -, -, rfl⟩ := reviseResource_eq_ok hrevise
        exact ⟨_, isOn_resource rfl key change, rfl, fun _ => ⟨.ios, rfl⟩⟩
  · obtain rfl := List.mem_singleton.1 hentry
    obtain ⟨text, -, rfl⟩ := reviseEntry_eq_ok hrevise
    exact ⟨_, isOn_entry platform key text change.written, rfl, nofun⟩

end Duty

/-- The note says which file the duty is about, and warns about it where it should. -/
structure Note.IsHonest (note : Note) (duty : Duty) (t : Tree) : Prop where
  about : duty.IsAbout t note.file
  warns : note.Warns

/-- Every duty that is done leaves an honest note. -/
theorem exists_honest_note {project : Project} {credentials : Credentials} {config : PatchSettings}
    {duty : Duty} (hduty : duty ∈ Duty.all project.store credentials config) {t after : Tree}
    {result : FileResult} (h : project.Performance duty t result after) :
    ∃ note : Note, note.IsOf duty result ∧ note.IsHonest duty t := by
  cases h with
  | lost search =>
      refine ⟨_, isOf_fail_lost duty _ (Duty.careful_of_mem_all hduty).lost, ?_,
        Note.warns_of_warning _⟩
      exact ⟨rfl, .inr ⟨⟨_, search⟩, rfl, rfl⟩⟩
  | hindered place revises =>
      exact ⟨_, isOf_fail_path duty _ _, ⟨rfl, .inl ⟨place, by simp⟩⟩, Note.warns_of_warning _⟩
  | refused place revises saves =>
      exact ⟨_, isOf_fail_path duty _ _, ⟨rfl, .inl ⟨place, by simp⟩⟩, Note.warns_of_warning _⟩
  | @answered key revision change _ place revises saves =>
      obtain ⟨note, hnote, -⟩ := Duty.exists_isOn hduty revises change
      refine ⟨note, hnote.isOf, ⟨hnote.platform, .inl ⟨?_, hnote.found⟩⟩, hnote.warns⟩
      rw [place, hnote.path]

theorem Note.IsOf.unique {note other : Note} {duty : Duty} {result : FileResult}
    (h : note.IsOf duty result) (h' : other.IsOf duty result) : note = other := by
  have hsame := (h .initial).symm.trans (h' .initial)
  have hfiles := congrArg RunReport.files hsame
  have hdiagnostics := congrArg RunReport.diagnostics hsame
  simp only [RunReport.withNotes, RunReport.initial, List.nil_append, List.map_cons, List.map_nil,
    List.flatMap_cons, List.flatMap_nil, List.append_nil] at hfiles hdiagnostics
  cases note
  cases other
  exact congr (congrArg Note.mk (List.singleton_inj.1 hfiles)) hdiagnostics

/-! ## Duties in a run -/

/-- What a duty finds in the grown project it found before. -/
theorem Duty.place_of_grows {store : Store} {credentials : Credentials} {config : PatchSettings}
    {duty : Duty} (hduty : duty ∈ all store credentials config) {t after : Tree}
    (h : t.Plain store.root) (hafter : after.Plain store.root)
    (hgrows : Tree.Grows store.root Location.stringTableNames t after)
    (hanswers : ∀ fault, duty.place after ≠ .error (.store fault)) :
    duty.place t = duty.place after := by
  obtain ⟨platform, -, hmem⟩ := List.mem_flatMap.1 hduty
  rcases List.mem_cons.1 hmem with rfl | hentry
  · cases platform with
    | android => rfl
    | ios => exact Location.search_ofPropertyList_of_grows h hafter hgrows hanswers
  · obtain rfl := List.mem_singleton.1 hentry
    exact Location.search_ofEntryFile_of_grows h hafter hgrows hanswers

theorem Duty.IsAbout.of_place_eq {duty : Duty} {t after : Tree} {file : FileReport}
    (hplace : duty.place t = duty.place after) (h : duty.IsAbout after file) :
    duty.IsAbout t file := by
  unfold IsAbout
  rwa [hplace]

theorem Duty.IsAbout.answers {duty : Duty} {t : Tree} {file : FileReport}
    (h : duty.IsAbout t file) (fault : StoreFault) : duty.place t ≠ .error (.store fault) := by
  rcases h.2 with ⟨hplace, -⟩ | ⟨⟨failure, hplace⟩, -⟩ <;> simp [hplace]

/-- A duty within a run from `t` to `after`: it is done in a project that has grown from `t`, leaves
a note, and later duties leave its file alone. -/
inductive Episode (project : Project) (t after : Tree) (duty : Duty) (note : Note) : Prop where
  | mk {before between : Tree} {result : FileResult} (plain : before.Plain project.store.root)
      (grows : Tree.Grows project.store.root Location.stringTableNames t before)
      (performance : project.Performance duty before result between) (isOf : note.IsOf duty result)
      (kept : after.fileAt (project.store.placeOf note.file.path) =
        between.fileAt (project.store.placeOf note.file.path))

theorem Episode.of_grows {project : Project} {t made after : Tree} {duty : Duty} {note : Note}
    (hgrows : Tree.Grows project.store.root Location.stringTableNames t made)
    (h : Episode project made after duty note) : Episode project t after duty note := by
  obtain ⟨plain, grows, performance, isOf, kept⟩ := h
  exact ⟨plain, hgrows.trans grows, performance, isOf, kept⟩

theorem Episode.isHonest {project : Project} {credentials : Credentials} {config : PatchSettings}
    {t after : Tree} {duty : Duty} {note : Note} (h : Episode project t after duty note)
    (hduty : duty ∈ Duty.all project.store credentials config)
    (hplain : t.Plain project.store.root) : note.IsHonest duty t := by
  obtain ⟨plain, grows, performance, isOf, -⟩ := h
  obtain ⟨other, hother, habout, hwarns⟩ := exists_honest_note hduty performance
  obtain rfl := hother.unique isOf
  exact ⟨habout.of_place_eq (Duty.place_of_grows hduty hplain plain grows habout.answers), hwarns⟩

theorem RunReport.withNotes_cons (report : RunReport) (note : Note) (notes : List Note) :
    (report.withNotes [note]).withNotes notes = report.withNotes (note :: notes) := by
  simp [withNotes]

/-- The duties of a run are episodes of it, and the report has their notes. A file that no duty is
about is as it was. -/
theorem episodes_of_performAll {project : Project} {credentials : Credentials}
    {config : PatchSettings} {duties : List Duty}
    (hduties : ∀ duty ∈ duties, duty ∈ Duty.all project.store credentials config)
    (hapart : duties.Pairwise Duty.Apart) {t after : Tree} (hplain : t.Plain project.store.root)
    {report final : RunReport} (hdone : project.performAll duties t report = (.ok final, after)) :
    (∀ p : Path, (∀ duty ∈ duties, ¬duty.name.toList <+: p.name) → after.fileAt p = t.fileAt p) ∧
      ∃ notes, List.Forall₂ (Episode project t after) duties notes ∧
        final = report.withNotes notes := by
  induction duties generalizing t report with
  | nil =>
      obtain ⟨hreport, rfl⟩ := Prod.mk.inj hdone
      obtain rfl := Except.ok.inj hreport
      exact ⟨fun _ _ => rfl, [], .nil, by simp [RunReport.withNotes]⟩
  | cons duty duties ih =>
      obtain ⟨hmem, hothers⟩ := List.forall_mem_cons.1 hduties
      obtain ⟨hfirst, hrest⟩ := List.pairwise_cons.1 hapart
      unfold performAll at hdone
      rcases hperform : project.perform duty t with ⟨hindrance | result, made⟩
      · rw [hperform] at hdone
        cases hdone
      rw [hperform] at hdone
      have hperformance := performance_of_perform hperform
      obtain ⟨note, hnote, -⟩ := exists_honest_note hmem hperformance
      obtain ⟨file, hfiles, hperformed⟩ :=
        performed_of_careful (Duty.careful_of_mem_all hmem) hplain hperform
      have hfile : note.file = file := by
        have hnoted := congrArg RunReport.files (hnote .initial)
        rw [hfiles] at hnoted
        exact (List.singleton_inj.1 hnoted).symm
      obtain ⟨hkept, notes, hepisodes, rfl⟩ := ih hothers hrest hperformed.plain hdone
      refine ⟨fun p hp => ?_, note :: notes, .cons ?_ ?_, ?_⟩
      · obtain ⟨hfar, hfars⟩ := List.forall_mem_cons.1 hp
        rw [hkept p hfars, hperformed.elsewhere]
        rintro rfl
        exact hfar hperformed.named
      · refine ⟨hplain, .refl _ _ t, hperformance, hnote, ?_⟩
        rw [hfile]
        exact hkept _ fun other hother => (hfirst other hother).not_both hperformed.named
      · exact hepisodes.imp fun _ _ hepisode => hepisode.of_grows hperformed.grows
      · rw [hnote, RunReport.withNotes_cons]

/-! ## The hook of an entry file -/

/-- Once the duty for an entry file that is found is done, its status tells whether the text there
has the hook. -/
theorem status_iff_isInstalled {project : Project} (hreal : project.dryRun = false) {t after : Tree}
    (hplain : t.Plain project.store.root) {platform : Platform} {result : FileResult}
    (h : project.Performance (.ofEntry project.store platform) t result after) {note : Note}
    (hnote : note.IsOf (.ofEntry project.store platform) result)
    (hfound : note.file.status ≠ .missing) {held : Contents} {text : Text}
    (hheld : after.fileAt (project.store.placeOf note.file.path) = some held)
    (htext : Utf8.decode held = .ok text) :
    platform.isInstalled text = true ↔
      note.file.status = .patched ∨ note.file.status = .unchanged := by
  -- What the file holds in the beginning is what the duty reads.
  have hreads {key : String} (hkey : Location.ofEntryFile project.store t platform = .ok key)
      (hbefore : t.fileAt (project.store.placeOf key) = some held) :
      project.store.readAsText t key = .ok text := by
    rw [Store.readAsText_of_read (Location.read_ofEntryFile hplain hkey hbefore), htext]
    rfl
  cases h with
  | lost search =>
      obtain rfl := hnote.unique (isOf_fail_lost _ _ fun _ hlost => by cases hlost)
      exact absurd rfl hfound
  | @hindered key hindrance place revises =>
      obtain rfl := hnote.unique (isOf_fail_path _ _ _)
      have hrevision := @Duty.reviseEntry_of_text _ platform _ _ _ (hreads place hheld)
      cases hrevision.symm.trans revises
  | @refused key revision hindrance _ place revises saves =>
      obtain rfl := hnote.unique (isOf_fail_path _ _ _)
      obtain ⟨read, hread, rfl⟩ := Duty.reviseEntry_eq_ok revises
      rcases carryOut_cases saves with ⟨done, hdone, -⟩ |
        ⟨contents, hcontents, -, ⟨fault, hwrite, -⟩ | ⟨-, hdone⟩⟩
      · cases hdone
      · obtain ⟨hchanged, -⟩ := Option.ite_none_right_eq_some.1 hcontents
        obtain ⟨-, -, hfiles⟩ := write_spelled hplain (Location.spelled_ofEntryFile hplain place)
          (.inr (Location.isSome_ofEntryFile hplain place)) hwrite
        have hsame := hfiles (project.store.placeOf key)
        simp only [Option.isNone_some, Bool.false_eq_true, false_and, if_false] at hsame
        obtain rfl := Except.ok.inj (hread.symm.trans (hreads place (hsame ▸ hheld)))
        simp [(Outcome.isInstalled_of_changed hchanged).1]
      · cases hdone
  | @answered key revision change _ place revises saves =>
      obtain ⟨read, hread, rfl⟩ := Duty.reviseEntry_eq_ok revises
      obtain rfl := hnote.unique (Duty.isOn_entry platform key read change.written).isOf
      have hpath : (Outcome.ofEntry platform key read).fileName = key :=
        Outcome.fileName_ofEntry platform key read
      simp only [Outcome.report, hpath] at hheld ⊢
      cases hchanged : (Outcome.ofEntry platform key read).changed with
      | false =>
          rw [hchanged] at saves
          obtain ⟨-, rfl⟩ := Prod.mk.inj saves
          obtain rfl := Except.ok.inj (hread.symm.trans (hreads place hheld))
          exact Outcome.isInstalled_iff_of_not_changed hchanged
      | true =>
          rw [hchanged, if_pos rfl, carryOut, if_neg (by simp [hreal])] at saves
          split at saves
          · cases saves
          · next made hwrite =>
            obtain ⟨-, rfl⟩ := Prod.mk.inj saves
            obtain ⟨-, -, hfiles⟩ := write_spelled hplain (Location.spelled_ofEntryFile hplain place)
              (.inr (Location.isSome_ofEntryFile hplain place)) hwrite
            have hwritten := hfiles (project.store.placeOf key)
            rw [if_pos ⟨rfl, rfl⟩, hheld] at hwritten
            rw [Option.some.inj hwritten, Utf8.decode_encode] at htext
            obtain rfl := Except.ok.inj htext
            simp [(Outcome.isInstalled_of_changed hchanged).2, Outcome.status_of_changed hchanged]

/-! ## Runs -/

/-- The duties of the platforms come in pairs. -/
theorem pairs_of_forall₂ {α : Type} {store : Store} {credentials : Credentials}
    {R : Duty → α → Prop} {platforms : List Platform} {items : List α}
    (h : List.Forall₂ R (platforms.flatMap (Duty.ofPlatform store credentials)) items) :
    ∃ pairs : List (α × α), items = pairs.flatMap (fun pair => [pair.1, pair.2]) ∧
      List.Forall₂ (fun platform pair => R (.ofResource store credentials platform) pair.1 ∧
        R (.ofEntry store platform) pair.2) platforms pairs := by
  induction platforms generalizing items with
  | nil =>
      cases h
      exact ⟨[], rfl, .nil⟩
  | cons platform platforms ih =>
      obtain _ | ⟨hresource, hothers⟩ := h
      obtain _ | ⟨hentry, hothers⟩ := hothers
      obtain ⟨pairs, rfl, hpairs⟩ := ih hothers
      exact ⟨(_, _) :: pairs, rfl, .cons ⟨hresource, hentry⟩ hpairs⟩

/-- The report of a run from `t` to `after` is true: it has two reports for each platform, on the
resource and on the entry file; what is not dealt with has a warning, and what is warned about is
reported; and an entry file that was found has its hook in the end exactly when the report says
so. -/
structure RunReport.IsTrue (report : RunReport) (store : Store) (credentials : Credentials)
    (config : PatchSettings) (t after : Tree) : Prop where
  inOrder : ∃ pairs : List (FileReport × FileReport),
    report.files = pairs.flatMap (fun pair => [pair.1, pair.2]) ∧
      List.Forall₂ (fun platform pair =>
        (Duty.ofResource store credentials platform).IsAbout t pair.1 ∧
          (Duty.ofEntry store platform).IsAbout t pair.2 ∧
          (config.dryRun = false → pair.2.status ≠ .missing → ∀ held text,
            after.fileAt (store.placeOf pair.2.path) = some held → Utf8.decode held = .ok text →
              (platform.isInstalled text = true ↔
                pair.2.status = .patched ∨ pair.2.status = .unchanged)))
        config.platforms pairs
  warned : ∀ file ∈ report.files, file.status = .unrecognized ∨ file.status = .missing →
    ∃ warning ∈ report.warnings, warning.fileName = file.path
  owned : ∀ warning ∈ report.warnings, ∃ file ∈ report.files, file.path = warning.fileName

/-- Duties that are done in a plain project leave a true report. -/
theorem isTrue_of_performAll {store : Store} {credentials : Credentials} {config : PatchSettings}
    {t after : Tree} (hplain : t.Plain store.root) {report : RunReport}
    (hdone : (Project.mk store config.dryRun).performAll (Duty.all store credentials config) t
      .initial = (.ok report, after)) : report.IsTrue store credentials config t after := by
  obtain ⟨-, notes, hepisodes, rfl⟩ := @episodes_of_performAll ⟨store, config.dryRun⟩ _ _ _
    (fun duty hduty => hduty) (Duty.apart_all store credentials config) _ _ hplain _ _ hdone
  have hall := (List.forall₂_and_left _ _).2 ⟨fun duty hduty => hduty, hepisodes⟩
  have hhonest : List.Forall₂ (fun duty note =>
      note.IsHonest duty t ∧ Episode ⟨store, config.dryRun⟩ t after duty note)
      (Duty.all store credentials config) notes :=
    hall.imp fun duty note hnote => ⟨hnote.2.isHonest hnote.1 hplain, hnote.2⟩
  have hwarns {note : Note} (hnote : note ∈ notes) : note.Warns := by
    obtain ⟨duty, -, hboth⟩ := exists_left_of_forall₂ hhonest hnote
    exact hboth.1.warns
  refine ⟨?_, fun file hfile hstatus => ?_, fun warning hwarning => ?_⟩
  · obtain ⟨pairs, rfl, hpairs⟩ := pairs_of_forall₂ hhonest
    refine ⟨pairs.map fun pair => (pair.1.file, pair.2.file), ?_, ?_⟩
    · simp [RunReport.withNotes, RunReport.initial, List.map_flatMap, List.flatMap_map]
    refine List.forall₂_map_right_iff.2 (hpairs.imp fun platform pair hpair => ?_)
    obtain ⟨⟨hresource, -⟩, hentry, plain, grows, performance, isOf, kept⟩ := hpair
    refine ⟨hresource.about, hentry.about, fun hreal hfound held text hheld htext => ?_⟩
    exact status_iff_isInstalled hreal plain performance isOf hfound (kept ▸ hheld) htext
  · obtain ⟨note, hnote, rfl⟩ := List.mem_map.1 hfile
    obtain ⟨warning, hwarning, hname⟩ := (hwarns hnote).warned hstatus
    obtain ⟨hmem, hserious⟩ := List.mem_filter.1 hwarning
    exact ⟨warning, List.mem_filter.2 ⟨List.mem_flatMap.2 ⟨note, hnote, hmem⟩, hserious⟩, hname⟩
  · obtain ⟨note, hnote, hmem⟩ := List.mem_flatMap.1 (List.mem_filter.1 hwarning).1
    exact ⟨note.file, List.mem_map.2 ⟨note, hnote, rfl⟩, ((hwarns hnote).owned warning hmem).symm⟩

section Runs

variable {root : Path} {credentials : Credentials} {config : PatchSettings} {store : Store}
  {world : World} {report : RunReport}

/-- A run that returns over a plain project with credentials given returns a true report. -/
theorem reports_of_run (hgiven : credentials.areGiven = true)
    (hstore : Store.ofProject world.tree root = .ok store) (hplain : world.tree.Plain store.root)
    (hreport : ((runOver root credentials config).run world).1 = .ok report) :
    report.IsTrue store credentials config world.tree
      ((runOver root credentials config).run world).2.tree := by
  obtain ⟨t, told⟩ := world
  have hgood : credentials.failure? = none := by
    by_contra hbad
    rw [((run_with_malformed_token hgiven hbad).run told).1] at hreport
    cases hreport
  obtain ⟨hresult, hafter⟩ := (ends_runOver config hgiven hgood hstore).run told
  rw [hafter]
  exact isTrue_of_performAll hplain (Prod.ext (hresult.symm.trans hreport) rfl)

/-! ### A project with an AppDelegate -/

/-- An iOS project with an AppDelegate without text. -/
def projectWithDelegate : Tree :=
  ((emptyProject.put ⟨["project".toList, "ios".toList]⟩ .directory).put
    ⟨["project".toList, "ios".toList, "App".toList]⟩ .directory).put
      ⟨["project".toList, "ios".toList, "App".toList, "AppDelegate.swift".toList]⟩ (.file [])

theorem plain_projectWithDelegate : projectWithDelegate.Plain ⟨["project".toList]⟩ := by
  have hios := @Tree.Plain.put _ _ plain_emptyProject [] "ios".toList .directory (by decide)
    (by decide) (by decide) (by simp)
  have happ := @Tree.Plain.put _ _ hios ["ios".toList] "App".toList .directory (by decide)
    (by decide) (by decide) (by simp)
  exact @Tree.Plain.put _ _ happ ["ios".toList, "App".toList] "AppDelegate.swift".toList (.file [])
    (by decide) (by decide) (by decide) (by simp)

private theorem delegate_projectWithDelegate :
    Location.ofAppDelegate ⟨⟨["project".toList]⟩⟩ projectWithDelegate =
      .ok "ios/App/AppDelegate.swift" := by cbv

private theorem properties_projectWithDelegate :
    ∃ failure, Location.ofPropertyList ⟨⟨["project".toList]⟩⟩ projectWithDelegate =
      .error (.failure failure) := by
  have hbeside : Location.beside "ios/App/AppDelegate.swift" Location.propertyListName =
      "ios/App/Info.plist" := by decide
  have hkey : "ios/App/Info.plist" =
      Store.keyOf ["ios".toList, "App".toList, "Info.plist".toList] := by decide
  have hspells : Store.Spells ["ios".toList, "App".toList, "Info.plist".toList] :=
    ⟨by decide, by rintro first others ⟨⟩; decide⟩
  have hhas : Store.has ⟨⟨["project".toList]⟩⟩ projectWithDelegate "ios/App/Info.plist" =
      .ok false := by
    rw [hkey, Store.has_keyOf hspells (List.cons_ne_nil _ _) plain_projectWithDelegate]
    cbv
  have hfirst : Location.first? ⟨⟨["project".toList]⟩⟩ projectWithDelegate
      [Location.propertyListPattern] = .ok none := by cbv
  refine ⟨Location.notFound .ios Location.propertyListName [Location.propertyListPattern], ?_⟩
  simp only [Location.ofPropertyList, Location.propertyListBeside?, delegate_projectWithDelegate,
    hbeside, hhas, Location.locate, hfirst]
  rfl

private theorem perform_projectWithDelegate :
    ∃ result, (Project.mk ⟨⟨["project".toList]⟩⟩ false).perform
      (Duty.ofEntry ⟨⟨["project".toList]⟩⟩ .ios) projectWithDelegate =
        (.ok result, projectWithDelegate) := by
  have hfile : projectWithDelegate.fileAt
      (Store.placeOf ⟨⟨["project".toList]⟩⟩ "ios/App/AppDelegate.swift") = some [] := by decide
  have hread := @Location.read_ofEntryFile _ _ plain_projectWithDelegate .ios _
    delegate_projectWithDelegate _ hfile
  have htext : Store.readAsText ⟨⟨["project".toList]⟩⟩ projectWithDelegate
      "ios/App/AppDelegate.swift" = .ok [] := by
    rw [Store.readAsText_of_read hread]
    rfl
  have hkept : (Outcome.ofEntry .ios "ios/App/AppDelegate.swift" []).changed = false := by
    decide
  simp only [perform, Duty.ofEntry, Location.ofEntryFile, delegate_projectWithDelegate, settle,
    Duty.reviseEntry_of_text htext, hkept]
  exact ⟨_, rfl⟩

theorem reports_of_run_projectWithDelegate :
    let root : Path := ⟨["project".toList]⟩
    let done := (runOver root someCredentials ⟨false, true, false⟩).run ⟨projectWithDelegate, []⟩
    someCredentials.areGiven = true ∧ Store.ofProject projectWithDelegate root = .ok ⟨root⟩ ∧
      projectWithDelegate.Plain root ∧ ∃ report, done.1 = .ok report ∧
        report.IsTrue ⟨root⟩ someCredentials ⟨false, true, false⟩ projectWithDelegate
          done.2.tree := by
  intro root done
  have hgiven : someCredentials.areGiven = true := by decide
  have hgood : someCredentials.failure? = none := by decide
  have hstore : Store.ofProject projectWithDelegate root = .ok ⟨root⟩ := by cbv
  obtain ⟨failure, hproperties⟩ := properties_projectWithDelegate
  obtain ⟨result, hentry⟩ : ∃ result, (Project.mk ⟨root⟩ false).perform (Duty.ofEntry ⟨root⟩ .ios)
      projectWithDelegate = (.ok result, projectWithDelegate) := perform_projectWithDelegate
  have hresource : (Project.mk ⟨root⟩ false).perform (Duty.ofResource ⟨root⟩ someCredentials .ios)
      projectWithDelegate = (.ok (.fail failure.text .none), projectWithDelegate) :=
    perform_of_lost hproperties
  have hends := (ends_runOver ⟨false, true, false⟩ hgiven hgood hstore).run []
  obtain ⟨report, hreport⟩ : ∃ report, done.1 = .ok report := by
    refine ⟨(RunReport.initial.add .ios "Info.plist" (.fail failure.text .none)).add .ios
      "AppDelegate" result, hends.1.trans ?_⟩
    show (performAll _ [_, _] _ _).1 = _
    simp only [performAll, hresource, hentry]
    rfl
  exact ⟨hgiven, hstore, plain_projectWithDelegate, report, hreport,
    reports_of_run hgiven hstore plain_projectWithDelegate hreport⟩

/-! ### A file of the name of a missing one -/

/-- The hook in a text that is nothing else. -/
def bareHook : Text :=
  "#if DEBUG\n.expo/.virtual-metro-entry\n#else\nreturn StallionModule.getBundleURL()".toList

/-- A project with a file of the name that stands for a missing AppDelegate. -/
def strayDelegate : Tree :=
  emptyProject.put ⟨["project".toList, "AppDelegate".toList]⟩ (.file (Utf8.encode bareHook))

theorem plain_strayDelegate : strayDelegate.Plain ⟨["project".toList]⟩ :=
  @Tree.Plain.put _ _ plain_emptyProject [] "AppDelegate".toList _ (by decide) (by decide)
    (by decide) (by simp)

/-- The AppDelegate is reported as missing by a name that a file with the hook has. -/
theorem missing_reported_strayDelegate :
    let root : Path := ⟨["project".toList]⟩
    let done := (runOver root someCredentials ⟨false, true, false⟩).run ⟨strayDelegate, []⟩
    Store.ofProject strayDelegate root = .ok ⟨root⟩ ∧ strayDelegate.Plain root ∧
      (∃ report, done.1 = .ok report ∧
        report.files = [⟨.ios, "Info.plist", .missing, none, false⟩,
          ⟨.ios, "AppDelegate", .missing, none, false⟩]) ∧
      done.2.tree.fileAt (Store.placeOf ⟨root⟩ "AppDelegate") = some (Utf8.encode bareHook) ∧
      Utf8.decode (Utf8.encode bareHook) = .ok bareHook ∧
      Platform.ios.isInstalled bareHook = true := by
  intro root done
  have hgiven : someCredentials.areGiven = true := by decide
  have hgood : someCredentials.failure? = none := by decide
  have hstore : Store.ofProject strayDelegate root = .ok ⟨root⟩ := by cbv
  obtain ⟨failure, hproperties⟩ : ∃ failure, Location.ofPropertyList ⟨⟨["project".toList]⟩⟩
      strayDelegate = .error (.failure failure) := ⟨_, by cbv⟩
  obtain ⟨failure', hdelegate⟩ : ∃ failure, Location.ofAppDelegate ⟨⟨["project".toList]⟩⟩
      strayDelegate = .error (.failure failure) := ⟨_, by cbv⟩
  have hends := (ends_runOver ⟨false, true, false⟩ hgiven hgood hstore).run []
  have hall : (Project.mk ⟨root⟩ false).performAll
      [.ofResource ⟨root⟩ someCredentials .ios, .ofEntry ⟨root⟩ .ios] strayDelegate .initial =
      (.ok ((RunReport.initial.add .ios "Info.plist" (.fail failure.text .none)).add .ios
        "AppDelegate" (.fail failure'.text (.platform .ios))), strayDelegate) := by
    have hresource : (Project.mk ⟨root⟩ false).perform
        (Duty.ofResource ⟨root⟩ someCredentials .ios) strayDelegate = _ :=
      perform_of_lost hproperties
    have hentry : (Project.mk ⟨root⟩ false).perform (Duty.ofEntry ⟨root⟩ .ios) strayDelegate = _ :=
      perform_of_lost hdelegate
    simp only [performAll, hresource, hentry]
    rfl
  have hplace : Store.placeOf ⟨root⟩ "AppDelegate" = ⟨["project".toList, "AppDelegate".toList]⟩ := by
    decide
  refine ⟨hstore, plain_strayDelegate, ⟨_, hends.1.trans (congrArg Prod.fst hall), rfl⟩, ?_,
    Utf8.decode_encode _, by decide⟩
  have hheld : strayDelegate.fileAt ⟨["project".toList, "AppDelegate".toList]⟩ =
      some (Utf8.encode bareHook) := by decide
  rw [hends.2.trans (congrArg Prod.snd hall), hplace]
  exact hheld

end Runs

end BundleHook
