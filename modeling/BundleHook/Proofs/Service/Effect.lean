import BundleHook.Proofs.Service.Interruption
import BundleHook.Proofs.Service.Writing

/-!
# The effect of a run

The duties of a run are about different files, so that none of them disturbs what another one reads:
the files that a run changes are those that it reports as written, and their contents are worked out
from the project as it was before the run.
-/

namespace BundleHook

open Glob (pathAt)

/-- What a project has come to from `t`, with the reports on files of some platforms: the files
reported as written have changed, and no others, and they have the contents that were due to them in
`t`. -/
structure Effect (store : Store) (credentials : Credentials) (platforms : List Platform)
    (t after : Tree) (files : List FileReport) : Prop where
  plain : after.Plain store.root
  grows : Tree.Grows store.root Location.stringTableNames t after
  changed : ∀ p, after.fileAt p ≠ t.fileAt p ↔
    ∃ file ∈ files, file.written = true ∧ p = store.placeOf file.path
  enabled : ∀ file ∈ files, file.platform ∈ platforms
  due : ∀ file ∈ files, file.written = true → file.status = .patched ∧ ∃ contents,
    Due store credentials t file.platform file.path contents ∧
      after.fileAt (store.placeOf file.path) = some contents
  apart : ∀ file ∈ files, ∀ other ∈ files,
    store.placeOf file.path = store.placeOf other.path → file = other

namespace Effect

variable {store : Store} {credentials : Credentials} {platforms : List Platform}
  {t between after : Tree} {files : List FileReport}

theorem nothing (h : t.Plain store.root) : Effect store credentials platforms t t [] where
  plain := h
  grows := .refl _ _ t
  changed _ := by simp
  enabled := List.forall_mem_nil _
  due := List.forall_mem_nil _
  apart := List.forall_mem_nil _

theorem untouched (heffect : Effect store credentials platforms t between files) {p : Path}
    (hother : ∀ other ∈ files, store.placeOf other.path ≠ p) : between.fileAt p = t.fileAt p := by
  by_contra hne
  obtain ⟨other, hmem, -, heq⟩ := (heffect.changed p).1 hne
  exact hother other hmem heq.symm

section Step

variable (heffect : Effect store credentials platforms t between files) {duty : Duty}
  {file : FileReport} (hperformed : Performed store credentials duty between after file)
  (hother : ∀ other ∈ files, store.placeOf other.path ≠ store.placeOf file.path)

include heffect hperformed hother

theorem changed_step (p : Path) : after.fileAt p ≠ t.fileAt p ↔
    ∃ one ∈ files ++ [file], one.written = true ∧ p = store.placeOf one.path := by
  have hone : (∃ one ∈ files ++ [file], one.written = true ∧ p = store.placeOf one.path) ↔
      between.fileAt p ≠ t.fileAt p ∨ file.written = true ∧ p = store.placeOf file.path := by
    rw [heffect.changed p]
    simp only [List.mem_append, List.mem_singleton, or_and_right, exists_or, exists_eq_left]
  rw [hone]
  by_cases hp : p = store.placeOf file.path
  · subst hp
    have hfresh := heffect.untouched hother
    rw [← hfresh, hperformed.changed_iff]
    simp
  · rw [hperformed.elsewhere hp]
    simp [hp]

omit hperformed in
theorem apart_step : ∀ one ∈ files ++ [file], ∀ other ∈ files ++ [file],
    store.placeOf one.path = store.placeOf other.path → one = other := by
  intro one hone other hmem hplace
  rcases List.mem_append.1 hone with hone | hone <;>
    rcases List.mem_append.1 hmem with hmem | hmem
  · exact heffect.apart one hone other hmem hplace
  · rw [List.mem_singleton.1 hmem] at hplace
    exact absurd hplace (hother one hone)
  · rw [List.mem_singleton.1 hone] at hplace
    exact absurd hplace.symm (hother other hmem)
  · rw [List.mem_singleton.1 hone, List.mem_singleton.1 hmem]

/-- One more duty adds its file, if that is another one. -/
theorem step (h : t.Plain store.root) (henabled : duty.platform ∈ platforms) :
    Effect store credentials platforms t after (files ++ [file]) where
  plain := hperformed.plain
  grows := heffect.grows.trans hperformed.grows
  changed := heffect.changed_step hperformed hother
  enabled := by
    refine List.forall_mem_append.2 ⟨heffect.enabled, List.forall_mem_singleton.2 ?_⟩
    rwa [hperformed.platform]
  due := by
    refine List.forall_mem_append.2 ⟨fun one hone hwritten => ?_,
      List.forall_mem_singleton.2 fun hwritten => ?_⟩
    · obtain ⟨hstatus, contents, hdue, hholds⟩ := heffect.due one hone hwritten
      exact ⟨hstatus, contents, hdue, by rw [hperformed.elsewhere (hother one hone), hholds]⟩
    · -- What the duty read had not been touched, so that its contents were due from the start.
      obtain ⟨hstatus, contents, hdue, -, hfiles⟩ := hperformed.wrote hwritten
      exact ⟨hstatus, contents,
        hdue.of_grows h heffect.plain heffect.grows (heffect.untouched hother),
        by rw [hfiles, if_pos rfl]⟩
  apart := heffect.apart_step hother

end Step

/-- A file that is reported, but not as patched, holds what it held before. -/
theorem kept (h : Effect store credentials platforms t after files) {file : FileReport}
    (hfile : file ∈ files) (hstatus : file.status ≠ .patched) :
    after.fileAt (store.placeOf file.path) = t.fileAt (store.placeOf file.path) := by
  by_contra hne
  obtain ⟨other, hother, hwritten, hplace⟩ := (h.changed _).1 hne
  obtain rfl := h.apart file hfile other hother hplace
  exact hstatus (h.due file hfile hwritten).1

end Effect

/-! ## Duties one after the other -/

namespace Duty

/-- The files of two duties never have the same name. -/
def Apart (duty other : Duty) : Prop :=
  ¬duty.name.toList <+: other.name.toList ∧ ¬other.name.toList <+: duty.name.toList

theorem Apart.not_both {duty other : Duty} (h : duty.Apart other) {name : Text}
    (hname : duty.name.toList <+: name) : ¬other.name.toList <+: name :=
  fun hother => (List.prefix_or_prefix_of_prefix hname hother).elim h.1 h.2

theorem apart_all (store : Store) (credentials : Credentials) (config : PatchSettings) :
    (all store credentials config).Pairwise Apart := by
  have hnames : ["strings.xml", "MainApplication", "Info.plist", "AppDelegate"].Pairwise
      fun name other : String => ¬name.toList <+: other.toList ∧ ¬other.toList <+: name.toList := by
    decide
  have hall : ((all store credentials config).map name).Sublist
      ["strings.xml", "MainApplication", "Info.plist", "AppDelegate"] := by
    unfold all PatchSettings.platforms
    cases config.androidEnabled <;> cases config.iosEnabled
    · exact List.nil_sublist _
    · show ["Info.plist", "AppDelegate"].Sublist _
      decide
    · show ["strings.xml", "MainApplication"].Sublist _
      decide
    · exact List.Sublist.refl _
  have hpairwise := List.pairwise_map.1 (hnames.sublist hall)
  exact hpairwise

theorem platform_of_mem_all {store : Store} {credentials : Credentials} {config : PatchSettings}
    {duty : Duty} (h : duty ∈ all store credentials config) : duty.platform ∈ config.platforms := by
  obtain ⟨platform, hplatform, hduty⟩ := List.mem_flatMap.1 h
  have heq : duty.platform = platform := by
    rcases List.mem_cons.1 hduty with rfl | hentry
    · cases platform <;> rfl
    · rw [List.mem_singleton.1 hentry]
      rfl
  rwa [heq]

end Duty

namespace Project

variable {project : Project} {credentials : Credentials} {platforms : List Platform}

/-- Duties about different files add up to an effect. -/
theorem effect_performAll {t : Tree} (h : t.Plain project.store.root) {duties : List Duty}
    (hcareful : ∀ duty ∈ duties, duty.Careful project.store credentials)
    (henabled : ∀ duty ∈ duties, duty.platform ∈ platforms)
    (hapart : duties.Pairwise Duty.Apart) {between after : Tree} {report final : RunReport}
    (heffect : Effect project.store credentials platforms t between report.files)
    (hother : ∀ duty ∈ duties, ∀ file ∈ report.files,
      ¬duty.name.toList <+: (project.store.placeOf file.path).name)
    (hdone : project.performAll duties between report = (.ok final, after)) :
    Effect project.store credentials platforms t after final.files := by
  -- No file reported so far has the name of a duty that is still to be done.
  induction duties generalizing between report with
  | nil =>
      obtain ⟨hreport, rfl⟩ := Prod.mk.inj hdone
      rwa [← Except.ok.inj hreport]
  | cons duty duties ih =>
      rw [List.pairwise_cons] at hapart
      unfold performAll at hdone
      rcases hfirst : project.perform duty between with ⟨hindrance | result, made⟩
      · rw [hfirst] at hdone
        cases hdone
      rw [hfirst] at hdone
      obtain ⟨file, hfiles, hperformed⟩ := performed_of_careful
        (hcareful duty List.mem_cons_self) heffect.plain hfirst
      have hdistinct (one : FileReport) (hone : one ∈ report.files) :
          project.store.placeOf one.path ≠ project.store.placeOf file.path := by
        intro hplace
        refine hother duty List.mem_cons_self one hone ?_
        rw [hplace]
        exact hperformed.named
      refine ih (fun other hmem => hcareful other (List.mem_cons_of_mem duty hmem))
        (fun other hmem => henabled other (List.mem_cons_of_mem duty hmem)) hapart.2 ?_ ?_ hdone
      · rw [hfiles]
        exact heffect.step hperformed hdistinct h (henabled duty List.mem_cons_self)
      · intro other hmem one hone
        rw [hfiles] at hone
        rcases List.mem_append.1 hone with hone | hone
        · exact hother other (List.mem_cons_of_mem duty hmem) one hone
        · rw [List.mem_singleton.1 hone]
          exact (hapart.1 other hmem).not_both hperformed.named

end Project

/-! ## Runs -/

section Runs

variable {root : Path} {credentials : Credentials} {config : PatchSettings} {t : Tree}

open Work

theorem run_without_credentials (hgiven : credentials.areGiven = false) :
    (runOver root credentials config).Ends t (.ok .ofSkipped) t := by
  unfold runOver
  rw [hgiven]
  exact (ends_pure _ t).after_tell _

theorem run_with_malformed_token (hgiven : credentials.areGiven = true)
    (hbad : credentials.failure? ≠ none) :
    (runOver root credentials config).Ends t (.error (.failure Credentials.malformedToken)) t := by
  have hfailure : credentials.failure? = some Credentials.malformedToken := by
    unfold Credentials.failure? at hbad ⊢
    split
    · next token htoken =>
      rw [htoken] at hbad
      split
      · next hgood => exact absurd (if_pos hgood) hbad
      · rfl
    · next htoken =>
      rw [htoken] at hbad
      exact absurd rfl hbad
  unfold runOver
  simp only [hgiven, hfailure]
  exact ends_throw _ t

theorem run_dry (hgiven : credentials.areGiven = true) (hgood : credentials.failure? = none)
    (hdry : config.dryRun = true) :
    ∃ result, (runOver root credentials config).Ends t result t := by
  rcases hstore : Store.ofProject t root with fault | store
  · exact ⟨_, run_without_root config hgiven hgood hstore⟩
  · have hends := ends_runOver config hgiven hgood hstore
    simp only [@Project.performAll_of_dryRun ⟨store, config.dryRun⟩ hdry] at hends
    exact ⟨_, hends⟩

/-- Credentials that are not given or a malformed token end a run before it touches the project, and
a dry run leaves it as it is. -/
theorem tree_of_run (world : World) (h : credentials.areGiven = false ∨
    credentials.failure? ≠ none ∨ config.dryRun = true) :
    ((runOver root credentials config).run world).2.tree = world.tree := by
  obtain ⟨t, told⟩ := world
  by_cases hgiven : credentials.areGiven = true
  · by_cases hgood : credentials.failure? = none
    · have hdry := (h.resolve_left (by simp [hgiven])).resolve_left (absurd hgood)
      obtain ⟨result, hends⟩ := @run_dry root _ _ t hgiven hgood hdry
      exact (hends.run told).2
    · exact ((run_with_malformed_token hgiven hgood).run told).2
  · exact ((run_without_credentials (Bool.eq_false_iff.2 hgiven)).run told).2

/-- A run that returns over a plain project has the effect that it reports. -/
theorem effect_of_run {store : Store} {world : World} {report : RunReport}
    (hstore : Store.ofProject world.tree root = .ok store) (hplain : world.tree.Plain store.root)
    (hreport : ((runOver root credentials config).run world).1 = .ok report) :
    Effect store credentials config.platforms world.tree
      ((runOver root credentials config).run world).2.tree report.files := by
  obtain ⟨t, told⟩ := world
  by_cases hgiven : credentials.areGiven = true
  · by_cases hgood : credentials.failure? = none
    · obtain ⟨hresult, hafter⟩ := (ends_runOver config hgiven hgood hstore).run told
      rw [hafter]
      rw [hresult] at hreport
      refine @Project.effect_performAll ⟨store, config.dryRun⟩ _ _ _ hplain _
        (fun duty hduty => Duty.careful_of_mem_all hduty)
        (fun duty hduty => Duty.platform_of_mem_all hduty) (Duty.apart_all store credentials config)
        _ _ _ _ (.nothing hplain) (fun duty _ file hfile => ?_) (Prod.ext hreport rfl)
      cases hfile
    · rw [((run_with_malformed_token hgiven hgood).run told).1] at hreport
      cases hreport
  · obtain ⟨hresult, hafter⟩ := (run_without_credentials (Bool.eq_false_iff.2 hgiven)).run told
    rw [hresult] at hreport
    obtain rfl := Except.ok.inj hreport
    rw [hafter]
    exact .nothing hplain

/-- The exact effect of a run: which files change, what they hold afterwards, and when none does. -/
theorem run_effect (root : Path) (credentials : Credentials) (config : PatchSettings)
    (world : World) :
    let done := (runOver root credentials config).run world
    (credentials.areGiven = false ∨ credentials.failure? ≠ none ∨ config.dryRun = true →
      done.2.tree = world.tree) ∧
    (credentials.areGiven = true → credentials.failure? ≠ none →
      done.1 = .error (.failure Credentials.malformedToken)) ∧
    ∀ store report, Store.ofProject world.tree root = .ok store →
      world.tree.Plain store.root → done.1 = .ok report →
      (∀ p, done.2.tree.fileAt p ≠ world.tree.fileAt p ↔
        ∃ file ∈ report.files, file.written = true ∧ p = store.placeOf file.path) ∧
      (∀ file ∈ report.files, file.written = true → file.platform ∈ config.platforms ∧
        ∃ contents, Due store credentials world.tree file.platform file.path contents ∧
          done.2.tree.fileAt (store.placeOf file.path) = some contents) ∧
      ∀ file ∈ report.files, file.status ≠ .patched →
        done.2.tree.fileAt (store.placeOf file.path) =
          world.tree.fileAt (store.placeOf file.path) := by
  intro done
  refine ⟨tree_of_run world, fun hgiven hbad => ?_, fun store report hstore hplain hreport => ?_⟩
  · exact ((run_with_malformed_token hgiven hbad).run world.events).1
  · have heffect := effect_of_run hstore hplain hreport
    refine ⟨heffect.changed, fun file hfile hwritten => ?_, fun file hfile => heffect.kept hfile⟩
    exact ⟨heffect.enabled file hfile, (heffect.due file hfile hwritten).2⟩

/-! ### A run over a project without files -/

theorem plain_emptyProject : emptyProject.Plain ⟨["project".toList]⟩ := by
  have hentry (names : List Text) : emptyProject.entry? (pathAt ⟨["project".toList]⟩ names) =
      if names = [] then some .directory else none := by
    cases names with
    | nil => decide
    | cons name names =>
        have hne : pathAt ⟨["project".toList]⟩ (name :: names) ≠ ⟨["project".toList]⟩ := by
          simp [pathAt]
        have htop : pathAt ⟨["project".toList]⟩ (name :: names) ≠ .top := by
          simp [pathAt, Path.top]
        unfold Tree.entry?
        rw [if_neg htop, emptyProject, List.lookup_cons, beq_false_of_ne hne]
        rfl
  refine ⟨by cbv, by decide, fun names target => ?_, fun names entry h => ?_,
    fun names name entry h => ?_⟩
  · rw [hentry]
    split <;> simp
  · rw [hentry] at h
    split at h
    · next hnil =>
      subst hnil
      simp at h ⊢
    · cases h
  · rw [hentry, if_neg (by simp)] at h
    cases h

/-- The project with a table of strings and nothing else. -/
def projectWithStrings (contents : Contents) : Tree :=
  ⟨(Location.stringTableNames.dropLast.inits.map fun names =>
      (pathAt ⟨["project".toList]⟩ names, .directory)) ++
    [(pathAt ⟨["project".toList]⟩ Location.stringTableNames, .file contents)]⟩

theorem write_emptyProject (contents : Contents) :
    Store.write ⟨⟨["project".toList]⟩⟩ emptyProject Location.stringTableKey contents =
      (none, projectWithStrings contents) := by
  have hpath := @Store.pathOf_keyOf _ Location.spells_stringTableNames (List.cons_ne_nil _ _)
    ⟨⟨["project".toList]⟩⟩ _ plain_emptyProject.linkless
  rw [← Location.stringTableKey_eq] at hpath
  rw [Store.write_of_pathOf hpath]
  cbv

theorem lost_projectWithStrings (contents : Contents) :
    ∃ failure, Location.ofMainApplication ⟨⟨["project".toList]⟩⟩ (projectWithStrings contents) =
      .error (.failure failure) :=
  ⟨_, by cbv⟩

theorem perform_projectWithStrings (contents : Contents) :
    ∃ message, (Project.mk ⟨⟨["project".toList]⟩⟩ false).perform
        (Duty.ofEntry ⟨⟨["project".toList]⟩⟩ .android) (projectWithStrings contents) =
      (.ok (.fail message (.platform .android)), projectWithStrings contents) := by
  obtain ⟨failure, hlost⟩ := lost_projectWithStrings contents
  refine ⟨(Hindrance.failure failure).message, ?_⟩
  simp only [Project.perform, Duty.ofEntry, Location.ofEntryFile, hlost]
  rfl

/-- The strings that a project without files gets. -/
def someStrings : Text :=
  StringTable.write [] (StringTable.setAll someCredentials.items StringTable.emptyRoot)

theorem textOrNothing_emptyProject : Store.textOrNothing ⟨⟨["project".toList]⟩⟩ emptyProject
    Location.stringTableKey = .ok [] := by
  have hhas : Store.has ⟨⟨["project".toList]⟩⟩ emptyProject Location.stringTableKey =
      .ok false := by
    rw [Location.stringTableKey_eq, Store.has_keyOf Location.spells_stringTableNames
      (List.cons_ne_nil _ _) plain_emptyProject]
    cbv
  unfold Store.textOrNothing
  rw [hhas]
  rfl

/-- The strings that a project without files is given first. -/
theorem reviseStrings_emptyProject (credentials : Credentials) :
    Duty.reviseStrings ⟨⟨["project".toList]⟩⟩ credentials emptyProject Location.stringTableKey =
      .ok ⟨some (Utf8.encode (StringTable.write []
          (StringTable.setAll credentials.items StringTable.emptyRoot))),
        Resource.stringTable.answer Location.stringTableKey⟩ := by
  have hupdated : Project.updatedStrings [] credentials = .ok (StringTable.write []
      (StringTable.setAll credentials.items StringTable.emptyRoot)) :=
    Duty.updatedStrings_eq_ok.2 rfl
  have hnew : StringTable.write []
      (StringTable.setAll credentials.items StringTable.emptyRoot) ≠ [] :=
    List.append_ne_nil_of_right_ne_nil _ (List.cons_ne_nil _ _)
  simp only [Duty.reviseStrings, Duty.reviseResource, textOrNothing_emptyProject, Except.mapError,
    bind, Except.bind, hupdated, pure, Except.pure, if_pos hnew]

theorem perform_emptyProject :
    (Project.mk ⟨⟨["project".toList]⟩⟩ false).perform
        (Duty.ofResource ⟨⟨["project".toList]⟩⟩ someCredentials .android) emptyProject =
      (.ok (Resource.stringTable.answer Location.stringTableKey ⟨true, true⟩),
        projectWithStrings (Utf8.encode someStrings)) := by
  simp only [Project.perform, Duty.ofResource, reviseStrings_emptyProject, Project.settle,
    Project.carryOut, write_emptyProject]
  rfl

theorem performAll_emptyProject :
    ∃ report, ((Project.mk ⟨⟨["project".toList]⟩⟩ false).performAll
        (Duty.all ⟨⟨["project".toList]⟩⟩ someCredentials ⟨true, false, false⟩) emptyProject
        .initial).1 = .ok report ∧
      report.files = [⟨.android, Location.stringTableKey, .patched, none, true⟩,
        ⟨.android, "MainApplication", .missing, none, false⟩] := by
  obtain ⟨message, hentry⟩ := perform_projectWithStrings (Utf8.encode someStrings)
  show ∃ report, (Project.performAll _
    [Duty.ofResource _ _ .android, Duty.ofEntry _ .android] _ _).1 = _ ∧ _
  simp only [Project.performAll, perform_emptyProject, hentry]
  exact ⟨_, rfl, rfl⟩

theorem run_effect_emptyProject :
    let root : Path := ⟨["project".toList]⟩
    let place := Store.placeOf ⟨root⟩ Location.stringTableKey
    let done := (runOver root someCredentials ⟨true, false, false⟩).run ⟨emptyProject, []⟩
    Store.ofProject emptyProject root = .ok ⟨root⟩ ∧ emptyProject.Plain root ∧
      (∃ report, done.1 = .ok report) ∧
      (∀ p, done.2.tree.fileAt p ≠ emptyProject.fileAt p ↔ p = place) ∧
      ∃ contents,
        Due ⟨root⟩ someCredentials emptyProject .android Location.stringTableKey contents ∧
          done.2.tree.fileAt place = some contents := by
  intro root place done
  have hstore : Store.ofProject emptyProject root = .ok ⟨root⟩ := by cbv
  have hgiven : someCredentials.areGiven = true := by decide
  have hgood : someCredentials.failure? = none := by decide
  have hends := ends_runOver ⟨true, false, false⟩ hgiven hgood hstore
  obtain ⟨report, hall, hfiles⟩ := performAll_emptyProject
  have hreport : done.1 = .ok report := (hends.run []).1.trans hall
  obtain ⟨hchanged, hdue, -⟩ := (run_effect root someCredentials ⟨true, false, false⟩
    ⟨emptyProject, []⟩).2.2 ⟨root⟩ report hstore plain_emptyProject hreport
  rw [hfiles] at hchanged hdue
  refine ⟨hstore, plain_emptyProject, ⟨report, hreport⟩, fun p => ?_,
    (hdue _ List.mem_cons_self rfl).2⟩
  simpa using hchanged p

end Runs

end BundleHook
