import BundleHook.Proofs.Service.Effect
import BundleHook.Proofs.Service.Steadiness

/-!
# A dry run predicts the real one

A run that only looks at the files of a project without links comes to the report that the real run
comes to when all its writes go through, except that nothing is reported as written, and to the same
hindrance otherwise.

* `perform_dry` — a duty that finds and reads the same;
* `performAll_dry` — the duties of a run;
* `dry_run_predicts` — runs.
-/

namespace BundleHook

open Glob (pathAt)

/-! ## Reports without writing -/

/-- The report on the file, had it not been written. -/
def FileReport.unwritten (file : FileReport) : FileReport := { file with written := false }

/-- The report, had no file been written. -/
def RunReport.unwritten (report : RunReport) : RunReport :=
  { report with files := report.files.map FileReport.unwritten }

/-- The answer, had the file not been written. -/
def FileResult.unwritten (result : FileResult) : FileResult :=
  { result with data := result.data.map FileReport.unwritten }

theorem RunReport.unwritten_add (report : RunReport) (platform : Platform) (name : String)
    (result : FileResult) :
    (report.add platform name result).unwritten =
      report.unwritten.add platform name (FileResult.unwritten result) := by
  rcases result with ⟨_ | _, data, error, warnings, detail⟩
  · cases detail <;> simp [add, unwritten, FileResult.unwritten, FileReport.unwritten]
  · cases data <;> simp [add, unwritten, FileResult.unwritten]

theorem unwritten_entryResult (file : FileReport) (diagnostics : List Diagnostic) :
    FileResult.unwritten (Project.entryResult file diagnostics) =
      Project.entryResult file.unwritten diagnostics := by
  unfold Project.entryResult
  split <;> rfl

namespace Duty

variable {store : Store} {credentials : Credentials} {config : PatchSettings} {t : Tree}
  {key : String}

/-- Whether a file has been written is told by a flag and by nothing else. -/
theorem unwritten_answer {duty : Duty} (hduty : duty ∈ all store credentials config)
    {revision : Revision} (hrevise : duty.revise t key = .ok revision) (change : Change) :
    FileResult.unwritten (revision.answer change) = revision.answer ⟨change.changed, false⟩ := by
  obtain ⟨platform, -, hmem⟩ := List.mem_flatMap.1 hduty
  rcases List.mem_cons.1 hmem with rfl | hentry
  · cases platform with
    | android =>
        obtain ⟨current, updated, -, -, rfl⟩ := reviseResource_eq_ok hrevise
        rfl
    | ios =>
        obtain ⟨current, updated, -, -, rfl⟩ := reviseResource_eq_ok hrevise
        rfl
  · obtain rfl := List.mem_singleton.1 hentry
    obtain ⟨text, -, rfl⟩ := reviseEntry_eq_ok hrevise
    exact unwritten_entryResult _ _

end Duty

/-! ## Duties -/

namespace Project

/-- Every write that the duties come to goes through. -/
def WritesThrough (project : Project) (duties : List Duty) (t : Tree) : Prop :=
  ∀ duty before key contents answer, project.Reaches duties t duty before →
    duty.place before = .ok key → duty.revise before key = .ok ⟨some contents, answer⟩ →
      (project.store.write before key contents).1 = none

variable {store : Store} {credentials : Credentials} {config : PatchSettings}

/-- A duty that finds and works out the same in both trees comes to the same, if what it writes goes
through. -/
theorem perform_dry {duty : Duty} (hduty : duty ∈ Duty.all store credentials config) {t now : Tree}
    (hplace : duty.place now = duty.place t)
    (hrevise : ∀ key, duty.place t = .ok key → duty.revise now key = duty.revise t key)
    (hwrites : ∀ key contents answer, duty.place t = .ok key →
      duty.revise t key = .ok ⟨some contents, answer⟩ → (store.write now key contents).1 = none) :
    ((Project.mk store true).perform duty t).1 =
        ((Project.mk store false).perform duty now).1.map FileResult.unwritten ∧
      (((Project.mk store false).perform duty now).2 = now ∨
        ∃ key contents answer, duty.place t = .ok key ∧
          duty.revise t key = .ok ⟨some contents, answer⟩ ∧
          ((Project.mk store false).perform duty now).2 = (store.write now key contents).2) := by
  unfold perform
  rw [hplace]
  rcases hkey : duty.place t with hindrance | key
  · refine ⟨?_, .inl rfl⟩
    cases hindrance <;> rfl
  simp only [hrevise key hkey]
  rcases hrevision : duty.revise t key with hindrance | ⟨news, answer⟩
  · refine ⟨?_, .inl rfl⟩
    simp only [settle, excused]
    split <;> rfl
  have hanswer (change : Change) :
      FileResult.unwritten (answer change) = answer ⟨change.changed, false⟩ :=
    Duty.unwritten_answer hduty hrevision change
  cases news with
  | none =>
      refine ⟨?_, .inl rfl⟩
      simp only [settle, carryOut, Except.map, excused, hanswer]
  | some contents =>
      have hwrite := hwrites key contents answer hkey hrevision
      rcases hwritten : store.write now key contents with ⟨fault, after⟩
      rw [hwritten] at hwrite
      obtain rfl : fault = none := hwrite
      simp only [settle, carryOut, hwritten, Except.map, excused, hanswer, if_true,
        Bool.false_eq_true, if_false]
      exact ⟨trivial, .inr ⟨key, contents, answer, rfl, hrevision, by rw [hwritten]⟩⟩

/-- The table of strings comes first, so that nothing has moved before it. -/
theorem perform_stringTable_dry {t : Tree} (h : Store.Unlinked t store.root)
    (hwrites : ∀ contents answer, Duty.reviseStrings store credentials t Location.stringTableKey =
      .ok ⟨some contents, answer⟩ → (store.write t Location.stringTableKey contents).1 = none) :
    let duty := Duty.ofResource store credentials .android
    ((Project.mk store true).perform duty t).1 =
        ((Project.mk store false).perform duty t).1.map FileResult.unwritten ∧
      ∃ between news, ((Project.mk store false).perform duty t).2 = between.overwrite news ∧
        Moved store duty.endings t between news := by
  intro duty
  have hduty : duty ∈ Duty.all store credentials ⟨true, false, false⟩ := List.mem_cons_self
  have hthrough (key : String) (contents : Contents) (answer : Change → FileResult)
      (hplace : duty.place t = .ok key)
      (hrevise : duty.revise t key = .ok ⟨some contents, answer⟩) :
      (store.write t key contents).1 = none := by
    obtain rfl := Except.ok.inj hplace
    exact hwrites contents answer hrevise
  obtain ⟨hresult, htree⟩ := perform_dry hduty rfl (fun key _ => rfl) hthrough
  refine ⟨hresult, ?_⟩
  rcases htree with hsame | ⟨key, contents, answer, hplace, hrevise, hafter⟩
  · exact ⟨t, .nothing, by rw [hsame, Tree.overwrite_nothing], .nothing h.linkless _⟩
  · have hwrite := hthrough key contents answer hplace hrevise
    obtain rfl := Except.ok.inj hplace
    rw [hafter]
    rcases moved_of_write h.linkless with ⟨refusal, made, -, -, hrefused⟩ | ⟨between, hwritten⟩
    · rw [hrefused contents] at hwrite
      cases hwrite
    · exact ⟨between, _, congrArg Prod.snd (hwritten contents).1, (hwritten contents).2⟩

theorem perform_steady_dry {duty : Duty} (hduty : duty ∈ Duty.all store credentials config)
    (hsteady : duty.Steady store) {t between : Tree} (h : Store.Unlinked t store.root)
    {names : List Text} {news : News} (hmoved : Moved store names t between news)
    (hapart : EndApart names duty.endings) :
    ((Project.mk store true).perform duty t).1 =
        ((Project.mk store false).perform duty (between.overwrite news)).1.map
          FileResult.unwritten ∧
      ∃ later, ((Project.mk store false).perform duty (between.overwrite news)).2 =
          between.overwrite later ∧ Moved store (duty.endings ++ names) t between later := by
  have hthrough (key : String) (contents : Contents) (answer : Change → FileResult)
      (hplace : duty.place t = .ok key)
      (hrevise : duty.revise t key = .ok ⟨some contents, answer⟩) :
      ∃ later, store.write (between.overwrite news) key contents =
          (none, between.overwrite later) ∧
        Moved store (duty.endings ++ names) t between later := by
    obtain ⟨held, hread⟩ := hsteady.reads hrevise
    obtain ⟨q, -, -, hwrite, hmoved'⟩ := hsteady.write_moved h hmoved hplace hread contents
    exact ⟨_, hwrite, hmoved'⟩
  obtain ⟨hresult, htree⟩ := perform_dry hduty (hsteady.place_moved h hmoved)
    (fun key hplace => hsteady.revise_moved h hmoved hplace hapart)
    fun key contents answer hplace hrevise => by
      obtain ⟨later, hwrite, -⟩ := hthrough key contents answer hplace hrevise
      rw [hwrite]
  refine ⟨hresult, ?_⟩
  rcases htree with hsame | ⟨key, contents, answer, hplace, hrevise, hafter⟩
  · exact ⟨news, hsame, hmoved.mono (List.subset_append_right _ _)⟩
  · obtain ⟨later, hwrite, hmoved'⟩ := hthrough key contents answer hplace hrevise
    exact ⟨later, by rw [hafter, hwrite], hmoved'⟩

/-- What the duties come to in the project as it was, and what they come to as it moves on. -/
theorem performAll_dry {duties : List Duty}
    (hduties : ∀ duty ∈ duties, duty ∈ Duty.all store credentials config ∧ duty.Steady store)
    (hapart : duties.Pairwise fun duty other => EndApart duty.endings other.endings)
    {t between : Tree} (h : Store.Unlinked t store.root) {names : List Text} {news : News}
    (hmoved : Moved store names t between news)
    (hothers : ∀ duty ∈ duties, EndApart names duty.endings) (report : RunReport) :
    ((Project.mk store true).performAll duties t report.unwritten).1 =
      ((Project.mk store false).performAll duties (between.overwrite news) report).1.map
        RunReport.unwritten := by
  induction duties generalizing names news report with
  | nil => rfl
  | cons duty duties ih =>
      obtain ⟨⟨hduty, hsteady⟩, hduties⟩ := List.forall_mem_cons.1 hduties
      obtain ⟨hfirst, hothers⟩ := List.forall_mem_cons.1 hothers
      rw [List.pairwise_cons] at hapart
      obtain ⟨hresult, later, hafter, hmoved'⟩ := perform_steady_dry hduty hsteady h hmoved hfirst
      have hdry := @perform_of_dryRun ⟨store, true⟩ rfl duty t
      rcases hlook : (Project.mk store true).perform duty t with ⟨looked, same⟩
      rw [hlook] at hresult hdry
      obtain rfl : same = t := hdry
      unfold performAll
      rcases hreal : (Project.mk store false).perform duty (between.overwrite news) with
        ⟨hindrance | result, made⟩
      · rw [hreal] at hresult
        obtain rfl : looked = .error hindrance := hresult
        rw [hlook]
        rfl
      · rw [hreal] at hresult hafter
        obtain rfl : made = between.overwrite later := hafter
        obtain rfl : looked = .ok (FileResult.unwritten result) := hresult
        rw [hlook]
        simp only
        rw [← RunReport.unwritten_add]
        refine ih hduties hapart.2 hmoved' (fun other hother => ?_) _
        exact (hapart.1 other hother).append (hothers other hother)

/-- All duties of a run. -/
theorem performAll_all_dry {t : Tree} (h : Store.Unlinked t store.root)
    (hwrites : (Project.mk store false).WritesThrough (Duty.all store credentials config) t) :
    ((Project.mk store true).performAll (Duty.all store credentials config) t .initial).1 =
      ((Project.mk store false).performAll (Duty.all store credentials config) t .initial).1.map
        RunReport.unwritten := by
  have hlater : ∀ duty ∈ Duty.later store credentials config,
      duty ∈ Duty.all store credentials config ∧ duty.Steady store :=
    fun duty hduty => ⟨Duty.mem_all_of_mem_later hduty, Duty.steady_of_mem_later hduty⟩
  have hapart := Duty.endApart_all store credentials config
  rw [Duty.all_eq_later] at hapart hwrites ⊢
  rcases henabled : config.androidEnabled <;> rw [henabled] at hapart hwrites
  case false =>
      have hdry := performAll_dry hlater hapart h (.nothing h.linkless [])
        (fun duty _ => List.forall_mem_nil _) .initial
      rw [Tree.overwrite_nothing] at hdry
      exact hdry
  case true =>
      obtain ⟨hfirst, hapart⟩ := List.pairwise_cons.1 hapart
      obtain ⟨hresult, between, news, hafter, hmoved⟩ := perform_stringTable_dry h
        fun contents answer => hwrites _ t _ contents answer (.first _ _ t) rfl
      have hdry := @perform_of_dryRun ⟨store, true⟩ rfl (Duty.ofResource store credentials .android) t
      simp only [if_true, List.cons_append, List.nil_append, performAll]
      rcases hlook : (Project.mk store true).perform (Duty.ofResource store credentials .android) t
        with ⟨looked, same⟩
      rw [hlook] at hresult hdry
      obtain rfl : same = t := hdry
      rcases hreal : (Project.mk store false).perform (Duty.ofResource store credentials .android)
        same with ⟨hindrance | result, made⟩
      · rw [hreal] at hresult
        obtain rfl : looked = .error hindrance := hresult
        rfl
      · rw [hreal] at hresult hafter
        obtain rfl : made = between.overwrite news := hafter
        obtain rfl : looked = .ok (FileResult.unwritten result) := hresult
        simp only
        exact (congrArg (fun report => (performAll _ _ same report).1)
          (RunReport.unwritten_add .initial _ _ result).symm).trans
          (performAll_dry hlater hapart h hmoved hfirst _)

end Project

/-! ## Runs -/

section Runs

variable {root : Path} {credentials : Credentials} {config : PatchSettings}

/-- All that the run writes over a tree goes through. -/
def WritesThrough (root : Path) (credentials : Credentials) (config : PatchSettings) (t : Tree) :
    Prop :=
  credentials.areGiven = true → credentials.failure? = none → ∀ store,
    Store.ofProject t root = .ok store →
      (Project.mk store false).WritesThrough (Duty.all store credentials config) t

/-- A dry run comes to what the real run comes to, except that no file is reported as written, and
leaves the project as it is. -/
theorem dry_run_predicts (root : Path) (credentials : Credentials) (config : PatchSettings)
    (world : World)
    (hunlinked : ∀ store, Store.ofProject world.tree root = .ok store →
      Store.Unlinked world.tree store.root)
    (hwrites : WritesThrough root credentials config world.tree) :
    let dry := (runOver root credentials { config with dryRun := true }).run world
    let real := (runOver root credentials { config with dryRun := false }).run world
    dry.1 = real.1.map RunReport.unwritten ∧ dry.2.tree = world.tree := by
  intro dry real
  refine ⟨?_, tree_of_run world (.inr (.inr rfl))⟩
  obtain ⟨t, told⟩ := world
  by_cases hgiven : credentials.areGiven = true
  · by_cases hgood : credentials.failure? = none
    · rcases hstore : Store.ofProject t root with fault | store
      · have hends (config : PatchSettings) := run_without_root config hgiven hgood hstore
        rw [((hends _).run told).1, ((hends _).run told).1]
        rfl
      · have hends (config : PatchSettings) := ends_runOver config hgiven hgood hstore
        rw [((hends _).run told).1, ((hends _).run told).1]
        exact Project.performAll_all_dry (hunlinked store hstore) (hwrites hgiven hgood store hstore)
    · rw [((run_with_malformed_token hgiven hgood).run told).1,
        ((run_with_malformed_token hgiven hgood).run told).1]
      rfl
  · have hnone := Bool.eq_false_iff.2 hgiven
    rw [((run_without_credentials hnone).run told).1, ((run_without_credentials hnone).run told).1]
    rfl

theorem writesThrough_emptyProject :
    WritesThrough ⟨["project".toList]⟩ someCredentials ⟨true, false, false⟩ emptyProject := by
  intro _ _ store hstore duty before key contents answer hreaches hplace hrevise
  have hroot : Store.ofProject emptyProject ⟨["project".toList]⟩ = .ok ⟨⟨["project".toList]⟩⟩ := by
    cbv
  obtain rfl := Except.ok.inj (hroot.symm.trans hstore)
  -- The table of strings is new, and no entry file is found after it.
  cases hreaches with
  | first =>
      obtain rfl := Except.ok.inj hplace
      rw [write_emptyProject]
  | later performs reaches =>
      rw [perform_emptyProject] at performs
      obtain ⟨-, rfl⟩ := Prod.mk.inj performs
      cases reaches with
      | first =>
          obtain ⟨failure, hlost⟩ := lost_projectWithStrings (Utf8.encode someStrings)
          simp only [Duty.ofEntry, Location.ofEntryFile, hlost] at hplace
          cases hplace
      | later _ reaches => cases reaches

/-- A dry run over a project without files tells of the strings that it would get. -/
theorem dry_run_predicts_emptyProject :
    let root : Path := ⟨["project".toList]⟩
    let dry := (runOver root someCredentials ⟨true, false, true⟩).run ⟨emptyProject, []⟩
    let real := (runOver root someCredentials ⟨true, false, false⟩).run ⟨emptyProject, []⟩
    (∀ store, Store.ofProject emptyProject root = .ok store →
        Store.Unlinked emptyProject store.root) ∧
      WritesThrough root someCredentials ⟨true, false, false⟩ emptyProject ∧
      dry.1 = real.1.map RunReport.unwritten ∧ dry.2.tree = emptyProject := by
  intro root dry real
  have hunlinked (store : Store) (hstore : Store.ofProject emptyProject root = .ok store) :
      Store.Unlinked emptyProject store.root := by
    have hroot : Store.ofProject emptyProject root = .ok ⟨root⟩ := by cbv
    obtain rfl := Except.ok.inj (hroot.symm.trans hstore)
    exact Store.unlinked_of_plain plain_emptyProject
  exact ⟨hunlinked, writesThrough_emptyProject,
    dry_run_predicts root someCredentials ⟨true, false, false⟩ ⟨emptyProject, []⟩ hunlinked
      writesThrough_emptyProject⟩

end Runs

end BundleHook
