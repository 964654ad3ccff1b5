import BundleHook.Proofs.Service.Writing
import BundleHook.Proofs.Store.NewContents
import Mathlib

/-!
# Patching files side by side

The files of a batch are patched by tasks: each reads its file, and writes it when the text has
changed. The steps of the tasks may come in any order. A task writes over a file that it has read,
so that no path leads elsewhere afterwards; and as no two keys lead to one file, a task finds its
own file as it was in the beginning, whatever the others have done so far.

* `Task`, `Step`, `Walk` — tasks, one step of one of them, and any number of steps;
* `Stage`, `Progress` — how far a task and a batch have come, seen from the first tree;
* `Progress.step` — a step keeps the progress;
* `batch_equals_one_by_one` — every walk ends with what patching the files one by one comes to.
-/

namespace BundleHook

open Work

/-! ## Tasks -/

/-- A file of a batch that is worked on. -/
inductive Batch.Task where
  | unread (key : String)
  /-- The file has been read, and its text has changed. -/
  | unwritten (platform : Platform) (key : String) (outcome : Outcome)
  | done (result : Except Hindrance FileOutcome)

/-- What is said about a file that has been dealt with. -/
def Outcome.settled (outcome : Outcome) (platform : Platform) (written : Bool) : FileOutcome :=
  ⟨some (outcome.report platform written), outcome.diagnostics⟩

namespace Project

variable (project : Project)

/-- A fault of the file at a key becomes an outcome. -/
def failed (key : String) (fault : StoreFault) : Except Hindrance FileOutcome :=
  if fault.isOfFile then .ok ⟨none, [⟨.warning, key, Hindrance.report (.store fault)⟩]⟩
  else .error (.store fault)

/-- The first step of a task. -/
def readTask (t : Tree) (key : String) : Batch.Task :=
  match Platform.ofFileName key.toList with
  | none => .done (.ok ⟨none, [⟨.warning, key, "Not a MainApplication or AppDelegate source"⟩]⟩)
  | some platform =>
    match project.store.readAsText t key with
    | .error fault => .done (failed key fault)
    | .ok text =>
      let outcome := Outcome.ofEntry platform key text
      if outcome.changed && !project.dryRun then .unwritten platform key outcome
      else .done (.ok (outcome.settled platform false))

/-- The second step of a task, with the tree that it leaves. -/
def writeTask (t : Tree) (platform : Platform) (key : String) (outcome : Outcome) :
    Except Hindrance FileOutcome × Tree :=
  match project.store.writeAsText t key outcome.contents with
  | (some fault, after) => (failed key fault, after)
  | (none, after) => (.ok (outcome.settled platform true), after)

variable {project} {t : Tree} {key : String}

theorem ends_caught_failed {α : Type} {work : Work α} {after : Tree} {fault : StoreFault}
    (h : work.Ends t (.error (.store fault)) after) {next : Except Hindrance α → Work FileOutcome}
    (hnext : ∀ fault, next (.error (.store fault)) = (do
      Work.tell (entryHindered key (.store fault))
      return ⟨none, [⟨.warning, key, Hindrance.report (.store fault)⟩]⟩)) :
    Ends (work.caught Hindrance.isOfFile >>= next) t (failed key fault) after := by
  refine h.bind_caught_error _ ?_
  rw [hnext]
  exact (ends_pure _ after).after_tell _

theorem carryOut_of_kept {outcome : Outcome} (hkept : (outcome.changed && !project.dryRun) = false)
    (contents : Contents) :
    project.carryOut t key (if outcome.changed then some contents else none) =
      (.ok ⟨outcome.changed, false⟩, t) := by
  cases hchanged : outcome.changed with
  | false => rfl
  | true =>
      have hdry : project.dryRun = true := by simpa [hchanged] using hkept
      rw [if_pos rfl, carryOut, if_pos hdry]

/-- A file that needs no second step is patched by the first one. -/
theorem ends_patchNamed_of_read {result : Except Hindrance FileOutcome}
    (h : project.readTask t key = .done result) : Ends (project.patchNamed key) t result t := by
  unfold readTask at h
  unfold patchNamed
  rcases hplatform : Platform.ofFileName key.toList with _ | platform
  · rw [hplatform] at h
    obtain rfl := Batch.Task.done.inj h
    exact ends_pure _ t
  rw [hplatform] at h
  simp only at h ⊢
  rcases htext : project.store.readAsText t key with fault | text
  · rw [htext] at h
    obtain rfl := Batch.Task.done.inj h
    have hread := ends_askFiles (project.store.readAsText · key) t
    simp only [htext] at hread
    have hpatch : Ends (project.patchAt platform key) t (.error (.store fault)) t :=
      hread.bind_error
    exact ends_caught_failed hpatch fun _ => rfl
  · rw [htext] at h
    simp only at h
    split at h
    · cases h
    · next hkept =>
      obtain rfl := Batch.Task.done.inj h
      have hpatch := project.ends_patchAt t key platform htext
      simp only [carryOut_of_kept (Bool.eq_false_iff.2 hkept), Except.map] at hpatch
      exact (hpatch.caught _).bind (ends_pure _ t)

/-- Otherwise both steps together patch it. -/
theorem ends_patchNamed_of_write {platform : Platform} {outcome : Outcome}
    (h : project.readTask t key = .unwritten platform key outcome) :
    Ends (project.patchNamed key) t (project.writeTask t platform key outcome).1
      (project.writeTask t platform key outcome).2 := by
  unfold readTask at h
  unfold patchNamed
  rcases hplatform : Platform.ofFileName key.toList with _ | platform'
  · rw [hplatform] at h
    cases h
  rw [hplatform] at h
  simp only at h ⊢
  rcases htext : project.store.readAsText t key with fault | text
  · rw [htext] at h
    cases h
  rw [htext] at h
  simp only at h
  split at h
  · next hwritten =>
    obtain ⟨rfl, -, rfl⟩ := Batch.Task.unwritten.inj h
    obtain ⟨hchanged, hreal⟩ := Bool.and_eq_true_iff.1 hwritten
    have hpatch := project.ends_patchAt t key platform' htext
    have hdry : project.dryRun = false := by simpa using hreal
    simp only [hchanged, if_true, carryOut, hdry, Bool.false_eq_true, if_false] at hpatch
    unfold writeTask Store.writeAsText
    rcases hwrite : project.store.write t key _ with ⟨_ | fault, after⟩
    · simp only [hwrite, Except.map] at hpatch
      exact (hpatch.caught _).bind (ends_pure _ after)
    · simp only [hwrite, Except.map] at hpatch
      exact ends_caught_failed hpatch fun _ => rfl
  · cases h

/-! ## One file at a time -/

/-- The outcome for a file as the first tree has it. -/
def outcomeOf (project : Project) (t : Tree) (key : String) : FileOutcome :=
  match Platform.ofFileName key.toList with
  | none => ⟨none, [⟨.warning, key, "Not a MainApplication or AppDelegate source"⟩]⟩
  | some platform =>
    match project.store.readAsText t key with
    | .error fault => ⟨none, [⟨.warning, key, Hindrance.report (.store fault)⟩]⟩
    | .ok text =>
      let outcome := Outcome.ofEntry platform key text
      outcome.settled platform (outcome.changed && !project.dryRun)

/-- Patching the file at the key writes the contents to the path. -/
def Edits (project : Project) (t : Tree) (key : String) (q : Path) (contents : Contents) : Prop :=
  ∃ platform outcome held, project.readTask t key = .unwritten platform key outcome ∧
    project.store.Finds t key q held ∧ contents = Utf8.encode outcome.contents

theorem Edits.finds {q : Path} {contents : Contents} (h : project.Edits t key q contents) :
    ∃ held, project.store.Finds t key q held := by
  obtain ⟨-, -, held, -, hfinds, -⟩ := h
  exact ⟨held, hfinds⟩

theorem Edits.unique {q q' : Path} {contents contents' : Contents}
    (h : project.Edits t key q contents) (h' : project.Edits t key q' contents') :
    q = q' ∧ contents = contents' := by
  obtain ⟨platform, outcome, held, hread, hfinds, rfl⟩ := h
  obtain ⟨platform', outcome', held', hread', hfinds', rfl⟩ := h'
  obtain ⟨-, -, rfl⟩ := Batch.Task.unwritten.inj (hread.symm.trans hread')
  exact ⟨(hfinds.unique hfinds').1, rfl⟩

/-- A file at a key with a path is done with, or it is found and has to be written. -/
theorem readTask_cases (hpath : ∃ p, project.store.pathOf t key = .ok p) :
    project.readTask t key = .done (.ok (project.outcomeOf t key)) ∨
      ∃ platform outcome q held, project.readTask t key = .unwritten platform key outcome ∧
        project.store.Finds t key q held ∧
        project.outcomeOf t key = outcome.settled platform true := by
  obtain ⟨p, hpath⟩ := hpath
  unfold readTask outcomeOf
  rcases Platform.ofFileName key.toList with _ | platform
  · exact .inl rfl
  simp only
  rcases htext : project.store.readAsText t key with fault | text
  · refine .inl ?_
    simp only [failed, Store.isOfFile_of_readAsText hpath htext, if_true]
  · obtain ⟨q, held, hfinds, -⟩ := Store.exists_finds_of_readAsText htext
    simp only
    cases hwritten : (Outcome.ofEntry platform key text).changed && !project.dryRun with
    | false => exact .inl rfl
    | true => exact .inr ⟨platform, _, q, held, rfl, hfinds, rfl⟩

section Overwritten

variable {news : News} (h : t.HasFilesFor news)

include h

theorem readTask_overwrite (huntouched : project.store.Untouched t news key) :
    project.readTask (t.overwrite news) key = project.readTask t key := by
  unfold readTask
  rw [Store.readAsText_overwrite h huntouched]

theorem writeTask_overwrite {q : Path} {held : Contents} (hfinds : project.store.Finds t key q held)
    (platform : Platform) (outcome : Outcome) :
    project.writeTask (t.overwrite news) platform key outcome =
      (.ok (outcome.settled platform true),
        t.overwrite (news.add q (Utf8.encode outcome.contents))) := by
  unfold writeTask Store.writeAsText
  rw [Store.write_overwrite h hfinds]

end Overwritten

end Project

/-! ## Steps -/

namespace Batch

/-- One task of a batch makes its next step. -/
inductive Step (project : Project) : Tree → List Task → Tree → List Task → Prop where
  | read {t : Tree} {tasks : List Task} {i : Nat} {key : String}
      (here : tasks[i]? = some (.unread key)) :
      Step project t tasks t (tasks.set i (project.readTask t key))
  | write {t : Tree} {tasks : List Task} {i : Nat} {platform : Platform} {key : String}
      {outcome : Outcome} (here : tasks[i]? = some (.unwritten platform key outcome)) :
      Step project t tasks (project.writeTask t platform key outcome).2
        (tasks.set i (.done (project.writeTask t platform key outcome).1))

/-- A number of steps, in any order. -/
inductive Walk (project : Project) : Nat → Tree → List Task → Tree → List Task → Prop where
  | here (t : Tree) (tasks : List Task) : Walk project 0 t tasks t tasks
  | step {n : Nat} {t between after : Tree} {tasks tasks' tasks'' : List Task}
      (first : Step project t tasks between tasks')
      (others : Walk project n between tasks' after tasks'') :
      Walk project (n + 1) t tasks after tasks''

/-- The steps that a task has still to make, at the most. -/
def Task.ahead : Task → Nat
  | unread _ => 2
  | unwritten _ _ _ => 1
  | done _ => 0

/-- How far the task for a key has come, seen from the first tree; the news are what all tasks have
written so far. -/
inductive Stage (project : Project) (t : Tree) (news : News) (key : String) : Task → Prop where
  | unread (untouched : project.store.Untouched t news key) : Stage project t news key (.unread key)
  | unwritten {platform : Platform} {outcome : Outcome}
      (read : project.readTask t key = .unwritten platform key outcome)
      (untouched : project.store.Untouched t news key) :
      Stage project t news key (.unwritten platform key outcome)
  | done (written : ∀ q contents, project.Edits t key q contents → news q = some contents) :
      Stage project t news key (.done (.ok (project.outcomeOf t key)))

/-- How far a batch has come. -/
structure Progress (project : Project) (t : Tree) (keys : List String) (news : News)
    (tasks : List Task) : Prop where
  files : t.HasFilesFor news
  length_eq : tasks.length = keys.length
  stage : ∀ (i : Nat) key task, keys[i]? = some key → tasks[i]? = some task →
    Stage project t news key task
  owned : ∀ q contents, news q = some contents → ∃ key ∈ keys, project.Edits t key q contents

section Batches

variable {project : Project} {t : Tree} {keys : List String}

theorem Progress.start : Progress project t keys .nothing (keys.map .unread) where
  files := t.hasFilesFor_nothing
  length_eq := List.length_map _
  stage i key task hkey htask := by
    rw [List.getElem?_map, hkey] at htask
    obtain rfl := Option.some.inj htask
    exact .unread fun _ _ _ => rfl
  owned q contents h := by cases h

variable (hpaths : ∀ key ∈ keys, ∃ p, project.store.pathOf t key = .ok p)
  (hapart : keys.Pairwise (project.store.Apart t))

include hapart in
theorem apart_of_getElem? {i j : Nat} {key other : String} (hij : i ≠ j)
    (hkey : keys[i]? = some key) (hother : keys[j]? = some other) :
    project.store.Apart t key other := by
  obtain ⟨hi, rfl⟩ := List.getElem?_eq_some_iff.1 hkey
  obtain ⟨hj, rfl⟩ := List.getElem?_eq_some_iff.1 hother
  rcases Nat.lt_or_gt_of_ne hij with hlt | hgt
  · exact List.pairwise_iff_getElem.1 hapart i j hi hj hlt
  · exact (List.pairwise_iff_getElem.1 hapart j i hj hi hgt).symm

/-- New contents for the file of one key do not concern another one. -/
theorem Stage.add {news : News} {key other : String} {task : Task} {q : Path} {held : Contents}
    (h : Stage project t news other task) (hfinds : project.store.Finds t key q held)
    (hkeys : project.store.Apart t key other) (contents : Contents) :
    Stage project t (news.add q contents) other task := by
  have hne {q' : Path} {held' : Contents} (h' : project.store.Finds t other q' held') : q' ≠ q := by
    rintro rfl
    exact hkeys _ _ _ hfinds h'
  cases h with
  | unread untouched =>
      exact .unread fun q' held' h' => (if_neg (hne h')).trans (untouched q' held' h')
  | unwritten read untouched =>
      exact .unwritten read fun q' held' h' => (if_neg (hne h')).trans (untouched q' held' h')
  | done written =>
      refine .done fun q' contents' h' => ?_
      obtain ⟨held', hfinds'⟩ := h'.finds
      exact (if_neg (hne hfinds')).trans (written q' contents' h')

/-- A task that reads is done with its file, or it has the outcome to write. -/
theorem Stage.read {news : News} {key key' : String} (hfiles : t.HasFilesFor news)
    (hpath : ∃ p, project.store.pathOf t key = .ok p)
    (h : Stage project t news key (.unread key')) :
    Stage project t news key (project.readTask (t.overwrite news) key') := by
  cases h with
  | unread untouched =>
      rw [Project.readTask_overwrite hfiles untouched]
      rcases Project.readTask_cases hpath with
        hdone | ⟨platform, outcome, q, held, hread, -, -⟩
      · rw [hdone]
        refine .done fun q contents hedits => ?_
        obtain ⟨platform, outcome, held, hread, -, -⟩ := hedits
        rw [hdone] at hread
        cases hread
      · rw [hread]
        exact .unwritten hread untouched

/-- A task that writes finds the file of its key, and puts the new contents there. -/
theorem Stage.write {news : News} {key key' : String} {platform : Platform} {outcome : Outcome}
    (hfiles : t.HasFilesFor news) (hpath : ∃ p, project.store.pathOf t key = .ok p)
    (h : Stage project t news key (.unwritten platform key' outcome)) :
    ∃ q held, project.store.Finds t key q held ∧
      project.Edits t key q (Utf8.encode outcome.contents) ∧
      project.writeTask (t.overwrite news) platform key' outcome =
        (.ok (project.outcomeOf t key),
          t.overwrite (news.add q (Utf8.encode outcome.contents))) := by
  cases h with
  | unwritten read untouched =>
      rcases Project.readTask_cases hpath with
        hdone | ⟨platform', outcome', q, held, hread, hfinds, hsettled⟩
      · rw [hdone] at read
        cases read
      obtain ⟨rfl, -, rfl⟩ := Task.unwritten.inj (hread.symm.trans read)
      refine ⟨q, held, hfinds, ⟨platform', outcome', held, hread, hfinds, rfl⟩, ?_⟩
      rw [Project.writeTask_overwrite hfiles hfinds, hsettled]

/-- What the key of a task edits is written once the news have it. -/
theorem Stage.done_add {news : News} {key : String} {q : Path} {contents : Contents}
    (hedits : project.Edits t key q contents) :
    Stage project t (news.add q contents) key (.done (.ok (project.outcomeOf t key))) := by
  refine .done fun q' contents' hedits' => ?_
  obtain ⟨rfl, rfl⟩ := hedits.unique hedits'
  exact if_pos rfl

section Progress

variable {news : News} {tasks : List Task} (h : Progress project t keys news tasks)

include h

theorem Progress.exists_key {i : Nat} {task : Task} (here : tasks[i]? = some task) :
    ∃ key, keys[i]? = some key :=
  ⟨_, List.getElem?_eq_getElem (h.length_eq ▸ (List.getElem?_eq_some_iff.1 here).1)⟩

/-- When one task has made its step, the stages of the others have to be carried over. -/
theorem Progress.set {news' : News} {i : Nat} {key : String} {task : Task}
    (hkey : keys[i]? = some key) (hfiles : t.HasFilesFor news')
    (hstage : Stage project t news' key task)
    (hothers : ∀ (j : Nat) other task, i ≠ j → keys[j]? = some other →
      Stage project t news other task → Stage project t news' other task)
    (howned : ∀ q contents, news' q = some contents → ∃ key ∈ keys, project.Edits t key q contents) :
    Progress project t keys news' (tasks.set i task) where
  files := hfiles
  length_eq := by rw [List.length_set, h.length_eq]
  stage j other made hother hmade := by
    rw [List.getElem?_set] at hmade
    by_cases hij : i = j
    · subst hij
      rw [if_pos rfl, if_pos (h.length_eq ▸ (List.getElem?_eq_some_iff.1 hkey).1)] at hmade
      obtain rfl := Option.some.inj hmade
      obtain rfl := Option.some.inj (hkey.symm.trans hother)
      exact hstage
    · rw [if_neg hij] at hmade
      exact hothers j other made hij hother (h.stage j other made hother hmade)
  owned := howned

theorem Progress.owned_add {key : String} (hkey : key ∈ keys) {q : Path} {contents : Contents}
    (hedits : project.Edits t key q contents) (q' : Path) (contents' : Contents)
    (hnews : news.add q contents q' = some contents') :
    ∃ key ∈ keys, project.Edits t key q' contents' := by
  by_cases hq : q' = q
  · rw [News.add, if_pos hq] at hnews
    rw [hq, ← Option.some.inj hnews]
    exact ⟨key, hkey, hedits⟩
  · rw [News.add, if_neg hq] at hnews
    exact h.owned q' contents' hnews

include hpaths hapart in
/-- A step keeps the progress. -/
theorem Progress.step {tasks' : List Task} {after : Tree}
    (hstep : Step project (t.overwrite news) tasks after tasks') :
    ∃ news', after = t.overwrite news' ∧ Progress project t keys news' tasks' := by
  cases hstep with
  | @read i key here =>
      obtain ⟨key', hkey'⟩ := h.exists_key here
      have hstage := (h.stage i key' _ hkey' here).read h.files
        (hpaths key' (List.mem_of_getElem? hkey'))
      exact ⟨news, rfl, h.set hkey' h.files hstage (fun _ _ _ _ _ hother => hother) h.owned⟩
  | @write i platform key outcome here =>
      obtain ⟨key', hkey'⟩ := h.exists_key here
      have hmem := List.mem_of_getElem? hkey'
      obtain ⟨q, held, hfinds, hedits, hwrite⟩ := (h.stage i key' _ hkey' here).write h.files
        (hpaths key' hmem)
      rw [hwrite]
      refine ⟨_, rfl, h.set hkey' (h.files.add hfinds.fileAt _) (.done_add hedits) ?_
        (h.owned_add hmem hedits)⟩
      intro j other task hij hother hstage
      exact hstage.add hfinds (apart_of_getElem? hapart hij hkey' hother) _

end Progress

/-- The steps that a batch has still to make, at the most. -/
def ahead (tasks : List Task) : Nat := (tasks.map Task.ahead).sum

omit hpaths hapart in
theorem ahead_set {tasks : List Task} {i : Nat} {task task' : Task} (h : tasks[i]? = some task)
    (hlt : task'.ahead < task.ahead) : ahead (tasks.set i task') < ahead tasks := by
  induction tasks generalizing i with
  | nil => cases h
  | cons first tasks ih =>
      cases i with
      | zero =>
          obtain rfl := Option.some.inj h
          simp only [ahead, List.set_cons_zero, List.map_cons, List.sum_cons]
          omega
      | succ i =>
          have hrest := ih (i := i) h
          simp only [ahead, List.set_cons_succ, List.map_cons, List.sum_cons] at hrest ⊢
          omega

omit hpaths hapart in
theorem ahead_readTask (key : String) : (project.readTask t key).ahead < 2 := by
  unfold Project.readTask
  split
  · exact Nat.zero_lt_two
  · split
    · exact Nat.zero_lt_two
    · simp only
      split
      · exact Nat.one_lt_two
      · exact Nat.zero_lt_two

omit hpaths hapart in
theorem ahead_unread (keys : List String) : ahead (keys.map .unread) = 2 * keys.length := by
  induction keys with
  | nil => rfl
  | cons key keys ih =>
      simp only [ahead, List.map_cons, List.sum_cons, List.length_cons, Task.ahead] at ih ⊢
      omega

omit hpaths hapart in
/-- Every step brings the batch nearer to its end. -/
theorem Step.ahead_lt {before after : Tree} {tasks tasks' : List Task}
    (h : Step project before tasks after tasks') : ahead tasks' < ahead tasks := by
  cases h with
  | read here => exact ahead_set here (ahead_readTask _)
  | write here => exact ahead_set here Nat.zero_lt_one

include hpaths hapart in
/-- A walk keeps the progress, and its steps are no more than there were ahead. -/
theorem Progress.walk {n : Nat} {between after : Tree} {news : News} {tasks tasks' : List Task}
    (h : Progress project t keys news tasks) (hbetween : between = t.overwrite news)
    (hwalk : Walk project n between tasks after tasks') :
    n + ahead tasks' ≤ ahead tasks ∧
      ∃ news', after = t.overwrite news' ∧ Progress project t keys news' tasks' := by
  induction hwalk generalizing news with
  | here => exact ⟨by omega, news, hbetween, h⟩
  | step first others ih =>
      subst hbetween
      obtain ⟨news', hafter, hprogress⟩ := h.step hpaths hapart first
      obtain ⟨hle, hend⟩ := ih hprogress hafter
      have hlt := first.ahead_lt
      exact ⟨by omega, hend⟩

/-- All tasks are done. -/
def results (project : Project) (t : Tree) (keys : List String) : List Task :=
  keys.map fun key => .done (.ok (project.outcomeOf t key))

omit hpaths hapart in
theorem Progress.eq_results {news : News} {tasks : List Task}
    (h : Progress project t keys news tasks) (hdone : ∀ task ∈ tasks, ∃ result, task = .done result) :
    tasks = results project t keys := by
  refine List.ext_getElem? fun i => ?_
  rw [results, List.getElem?_map]
  rcases hkey : keys[i]? with _ | key
  · have hlength := List.getElem?_eq_none_iff.1 hkey
    exact List.getElem?_eq_none_iff.2 (h.length_eq ▸ hlength)
  · have hi := (List.getElem?_eq_some_iff.1 hkey).1
    obtain ⟨task, htask⟩ : ∃ task, tasks[i]? = some task :=
      ⟨_, List.getElem?_eq_getElem (h.length_eq ▸ hi)⟩
    obtain ⟨result, rfl⟩ := hdone task (List.mem_of_getElem? htask)
    rw [htask]
    cases h.stage i key _ hkey htask with
    | done written => rfl

omit hpaths hapart in
/-- In the end the news are what all the keys come to. -/
theorem Progress.news_iff {news : News} (h : Progress project t keys news (results project t keys))
    {q : Path} {contents : Contents} :
    news q = some contents ↔ ∃ key ∈ keys, project.Edits t key q contents := by
  refine ⟨h.owned q contents, ?_⟩
  rintro ⟨key, hkey, hedits⟩
  obtain ⟨i, hi⟩ := List.getElem?_of_mem hkey
  have htask : (results project t keys)[i]? = some (.done (.ok (project.outcomeOf t key))) := by
    rw [results, List.getElem?_map, hi]
    rfl
  cases h.stage i key _ hi htask with
  | done written => exact written q contents hedits

include hpaths hapart in
/-- A batch comes to an end from wherever it has got. -/
theorem Progress.exists_end {news : News} {tasks : List Task}
    (h : Progress project t keys news tasks) :
    ∃ n news', Walk project n (t.overwrite news) tasks (t.overwrite news')
        (results project t keys) ∧ Progress project t keys news' (results project t keys) := by
  induction hahead : ahead tasks using Nat.strongRecOn generalizing news tasks with
  | _ count ih =>
      by_cases hdone : ∀ task ∈ tasks, ∃ result, task = .done result
      · have heq := h.eq_results hdone
        exact ⟨0, news, heq ▸ .here _ _, heq ▸ h⟩
      · obtain ⟨after, tasks', hstep⟩ : ∃ after tasks',
            Step project (t.overwrite news) tasks after tasks' := by
          simp only [Classical.not_forall, not_exists] at hdone
          obtain ⟨task, hmem, hnot⟩ := hdone
          obtain ⟨i, hi⟩ := List.getElem?_of_mem hmem
          cases task with
          | unread key => exact ⟨_, _, .read hi⟩
          | unwritten platform key outcome => exact ⟨_, _, .write hi⟩
          | done result => exact absurd rfl (hnot result)
        obtain ⟨news', rfl, hprogress⟩ := h.step hpaths hapart hstep
        have hlt := hstep.ahead_lt
        obtain ⟨n, last, hwalk, hlast⟩ := ih (ahead tasks') (by omega) hprogress rfl
        exact ⟨n + 1, last, .step hstep hwalk, hlast⟩

end Batches

/-! ## One after the other -/

section Sequence

variable {project : Project} {t : Tree} {keys : List String}

/-- From a tree with new contents for other files, the work does what is to be done for the key in
the first tree. -/
def Serves {β : Type} (project : Project) (t : Tree) (key : String) (work : Work β) (b : β) :
    Prop :=
  ∀ news, t.HasFilesFor news → project.store.Untouched t news key →
    ∃ news', work.Ends (t.overwrite news) (.ok b) (t.overwrite news') ∧ t.HasFilesFor news' ∧
      ∀ q contents, news' q = some contents ↔
        news q = some contents ∨ project.Edits t key q contents

theorem serves_patchNamed {key : String} (hpath : ∃ p, project.store.pathOf t key = .ok p) :
    Serves project t key (project.patchNamed key) (project.outcomeOf t key) := by
  intro news hfiles huntouched
  have hsame := Project.readTask_overwrite hfiles huntouched
  rcases Project.readTask_cases hpath with
    hdone | ⟨platform, outcome, q, held, hread, hfinds, hsettled⟩
  · refine ⟨news, Project.ends_patchNamed_of_read (hsame.trans hdone), hfiles, fun q contents => ?_⟩
    refine ⟨.inl, fun h => h.resolve_right ?_⟩
    rintro ⟨platform, outcome, held, hread, -, -⟩
    rw [hdone] at hread
    cases hread
  · have hwrite := Project.ends_patchNamed_of_write (hsame.trans hread)
    rw [Project.writeTask_overwrite hfiles hfinds, ← hsettled] at hwrite
    have hedits : project.Edits t key q (Utf8.encode outcome.contents) :=
      ⟨platform, outcome, held, hread, hfinds, rfl⟩
    refine ⟨_, hwrite, hfiles.add hfinds.fileAt _, fun q' contents => ?_⟩
    by_cases hq : q' = q
    · subst hq
      rw [News.add, if_pos rfl, huntouched q' held hfinds]
      simp only [Option.some.injEq, reduceCtorEq, false_or]
      refine ⟨fun h => h ▸ hedits, fun h => (hedits.unique h).2⟩
    · rw [News.add, if_neg hq]
      exact ⟨.inl, fun h => h.resolve_right fun h' => hq (hedits.unique h').1.symm⟩

theorem ends_locate {key : String} {news : News} (hfiles : t.HasFilesFor news)
    (hpath : ∃ p, project.store.pathOf t key = .ok p) :
    Ends (project.locate key) (t.overwrite news) (.ok ()) (t.overwrite news) := by
  obtain ⟨p, hpath⟩ := hpath
  have hask := ends_askFiles (project.store.pathOf · key) (t.overwrite news)
  simp only [Store.pathOf_overwrite hfiles, hpath] at hask
  unfold Project.locate
  split
  · exact hask.bind (ends_pure () _)
  · exact ends_pure () _

theorem ends_locateAll {news : News} (hfiles : t.HasFilesFor news)
    (hpaths : ∀ key ∈ keys, ∃ p, project.store.pathOf t key = .ok p) :
    Ends (keys.forM project.locate) (t.overwrite news) (.ok ()) (t.overwrite news) := by
  induction keys with
  | nil => exact ends_pure () _
  | cons key keys ih =>
      obtain ⟨hkey, hkeys⟩ := List.forall_mem_cons.1 hpaths
      exact (ends_locate hfiles hkey).bind (ih hkeys)

theorem serves_patchAll_one {key : String} (hpath : ∃ p, project.store.pathOf t key = .ok p) :
    Serves project t key (project.patchAll [key]) [project.outcomeOf t key] := by
  intro news hfiles huntouched
  obtain ⟨news', hends, hfiles', hnews⟩ := serves_patchNamed hpath news hfiles huntouched
  refine ⟨news', ?_, hfiles', hnews⟩
  have hlocate : Ends ([key].forM project.locate) (t.overwrite news) (.ok ()) (t.overwrite news) :=
    ends_locateAll hfiles (List.forall_mem_singleton.2 hpath)
  refine hlocate.bind ?_
  rw [List.mapM_cons]
  exact hends.bind (ends_pure _ _)

/-- Work for keys that lead to different files, one after the other. -/
theorem ends_mapM {β : Type} {work : String → Work β} {answer : String → β}
    (hserves : ∀ key ∈ keys, Serves project t key (work key) (answer key))
    (hapart : keys.Pairwise (project.store.Apart t)) {news : News} (hfiles : t.HasFilesFor news)
    (huntouched : ∀ key ∈ keys, project.store.Untouched t news key) :
    ∃ news', Ends (keys.mapM work) (t.overwrite news) (.ok (keys.map answer))
        (t.overwrite news') ∧
      ∀ q contents, news' q = some contents ↔
        news q = some contents ∨ ∃ key ∈ keys, project.Edits t key q contents := by
  induction keys generalizing news with
  | nil => exact ⟨news, ends_pure _ _, by simp⟩
  | cons key keys ih =>
      obtain ⟨hkey, hkeys⟩ := List.forall_mem_cons.1 hserves
      obtain ⟨hfirst, hothers⟩ := List.pairwise_cons.1 hapart
      obtain ⟨hclean, hcleans⟩ := List.forall_mem_cons.1 huntouched
      obtain ⟨between, hends, hbetween, hnews⟩ := hkey news hfiles hclean
      have hstill : ∀ other ∈ keys, project.store.Untouched t between other := by
        intro other hother q held hfinds
        refine Option.eq_none_iff_forall_ne_some.2 fun contents hcontents => ?_
        rcases (hnews q contents).1 hcontents with hold | hedits
        · rw [hcleans other hother q held hfinds] at hold
          cases hold
        · obtain ⟨held', hfinds'⟩ := hedits.finds
          exact hfirst other hother q held' held hfinds' hfinds
      obtain ⟨news', hmore, hlast⟩ := ih hkeys hothers hbetween hstill
      refine ⟨news', ?_, fun q contents => ?_⟩
      · rw [List.mapM_cons, List.map_cons]
        exact hends.bind (hmore.bind (ends_pure _ _))
      · rw [hlast, hnews, List.exists_mem_cons_iff, or_assoc]

end Sequence

/-! ## Files that are left alone -/

section LeftAlone

variable {project : Project} {t : Tree} {key : String}

/-- The file at the key cannot be patched. -/
inductive Unusable (project : Project) (t : Tree) (key : String) : Prop where
  | unknownEnding (name : Platform.ofFileName key.toList = none)
  | missing (nothing : ∀ q held, ¬ project.store.Finds t key q held)
  | undecodable {q : Path} {held : Contents} {flaw : Utf8.Flaw}
      (finds : project.store.Finds t key q held) (fails : Utf8.decode held = .error flaw)
  | unrecognized {q : Path} {held : Contents} {text : Text} {platform : Platform}
      (name : Platform.ofFileName key.toList = some platform)
      (finds : project.store.Finds t key q held) (decodes : Utf8.decode held = .ok text)
      (status : (Outcome.ofEntry platform key text).status = .unrecognized)

/-- The file gets a warning of its own and is not written. -/
theorem Unusable.warns (h : Unusable project t key) :
    (∀ q contents, ¬ project.Edits t key q contents) ∧
      ∃ message, (project.outcomeOf t key).diagnostics = [⟨.warning, key, message⟩] := by
  have hunwritten (result : Except Hindrance FileOutcome)
      (hread : project.readTask t key = .done result) :
      ∀ q contents, ¬ project.Edits t key q contents := by
    rintro q contents ⟨platform, outcome, held, hunread, -, -⟩
    rw [hread] at hunread
    cases hunread
  have hfault {platform : Platform} (name : Platform.ofFileName key.toList = some platform)
      {fault : StoreFault} (hread : project.store.readAsText t key = .error fault) :
      (∀ q contents, ¬ project.Edits t key q contents) ∧
        ∃ message, (project.outcomeOf t key).diagnostics = [⟨.warning, key, message⟩] := by
    refine ⟨hunwritten (Project.failed key fault) ?_, Hindrance.report (.store fault), ?_⟩
    · simp only [Project.readTask, name, hread]
    · simp only [Project.outcomeOf, name, hread]
  cases hname : Platform.ofFileName key.toList with
  | none =>
      refine ⟨hunwritten (.ok (project.outcomeOf t key)) ?_,
        "Not a MainApplication or AppDelegate source", ?_⟩
      · simp only [Project.readTask, Project.outcomeOf, hname]
      · simp only [Project.outcomeOf, hname]
  | some platform =>
      cases h with
      | unknownEnding name =>
          rw [hname] at name
          cases name
      | missing nothing =>
          rcases htext : project.store.readAsText t key with fault | text
          · exact hfault hname htext
          · obtain ⟨q, held, hfinds, -⟩ := Store.exists_finds_of_readAsText htext
            exact absurd hfinds (nothing q held)
      | undecodable finds fails =>
          have htext := finds.readAsText
          rw [fails] at htext
          exact hfault hname htext
      | @unrecognized _ _ text _ name finds decodes status =>
          obtain rfl := Option.some.inj (hname.symm.trans name)
          have htext := finds.readAsText
          rw [decodes] at htext
          obtain ⟨hkept, message, hmessage⟩ := Outcome.refused_of_unrecognized status
          refine ⟨hunwritten (.ok ((Outcome.ofEntry platform key text).settled platform false)) ?_,
            message, ?_⟩
          · simp only [Project.readTask, hname, htext, Except.mapError, hkept, Bool.false_and,
              Bool.false_eq_true, if_false]
          · simp only [Project.outcomeOf, hname, htext, Except.mapError]
            exact hmessage

end LeftAlone

end Batch

open Batch

/-- The files at keys that have a path and lead to different files may be patched side by side:
however the steps of their tasks come, the batch ends after at most two steps for each key with one
outcome for each key, in order, and with one tree. The outcomes are those of patching each file
alone in the first tree, and the tree is that of patching the files one after the other, in any
order. A file that cannot be patched gets one warning of its own and stays as it is. -/
theorem batch_equals_one_by_one {project : Project} {t : Tree} {keys : List String}
    (hpaths : ∀ key ∈ keys, ∃ p, project.store.pathOf t key = .ok p)
    (hapart : keys.Pairwise (project.store.Apart t)) :
    ∃ (outcomes : List FileOutcome) (after : Tree), outcomes.length = keys.length ∧
      (∀ n between tasks, Walk project n t (keys.map .unread) between tasks →
        n ≤ 2 * keys.length ∧
          ((∀ task ∈ tasks, ∃ result, task = .done result) →
            tasks = outcomes.map (fun outcome => .done (.ok outcome)) ∧ between = after) ∧
          ∃ m, Walk project m between tasks after
            (outcomes.map fun outcome => .done (.ok outcome))) ∧
      Ends (project.patchAll keys) t (.ok outcomes) after ∧
      (∀ order : List String, order.Perm keys → ∃ answers,
        Ends (order.mapM fun key => project.patchAll [key]) t (.ok answers) after) ∧
      ∀ (i : Nat) key outcome, keys[i]? = some key → outcomes[i]? = some outcome →
        (∃ alone, Ends (project.patchAll [key]) t (.ok [outcome]) alone) ∧
          (Unusable project t key →
            (∃ message, outcome.diagnostics = [⟨.warning, key, message⟩]) ∧
              ∀ q held, project.store.Finds t key q held → after.fileAt q = some held) := by
  have hsame : t = t.overwrite .nothing := t.overwrite_nothing.symm
  have hclean {key : String} : project.store.Untouched t .nothing key := fun _ _ _ => rfl
  have hstart : Progress project t keys .nothing (keys.map .unread) := .start
  obtain ⟨-, news, -, hlast⟩ := hstart.exists_end hpaths hapart
  -- The news of any end are the same, because they are those of the keys.
  have hnews {other : News} (hother : ∀ q contents, other q = some contents ↔
      ∃ key ∈ keys, project.Edits t key q contents) : other = news := by
    funext q
    exact Option.ext fun contents => (hother q contents).trans hlast.news_iff.symm
  have hresults : results project t keys =
      (keys.map (project.outcomeOf t)).map (fun outcome => .done (.ok outcome)) := by
    rw [results, List.map_map]
    rfl
  refine ⟨keys.map (project.outcomeOf t), t.overwrite news, List.length_map _, ?_, ?_, ?_, ?_⟩
  · intro n between tasks hwalk
    obtain ⟨hle, news', rfl, hprogress⟩ := hstart.walk hpaths hapart hsame hwalk
    have hahead := ahead_unread keys
    rw [← hresults]
    refine ⟨by omega, fun hdone => ?_, ?_⟩
    · have heq := hprogress.eq_results hdone
      subst heq
      obtain rfl : news' = news := hnews fun q contents => hprogress.news_iff
      exact ⟨rfl, rfl⟩
    · obtain ⟨m, news'', hend, hprogress'⟩ := hprogress.exists_end hpaths hapart
      obtain rfl : news'' = news := hnews fun q contents => hprogress'.news_iff
      exact ⟨m, hend⟩
  · obtain ⟨news', hends, hnews'⟩ := ends_mapM
      (fun key hkey => serves_patchNamed (hpaths key hkey)) hapart t.hasFilesFor_nothing
      fun _ _ => hclean
    obtain rfl : news' = news := hnews fun q contents =>
      (hnews' q contents).trans (or_iff_right (Option.some_ne_none contents).symm)
    have hlocate := ends_locateAll t.hasFilesFor_nothing hpaths
    rw [← hsame] at hlocate hends
    exact hlocate.bind hends
  · intro order horder
    have hpathsOf : ∀ key ∈ order, ∃ p, project.store.pathOf t key = .ok p :=
      fun key hkey => hpaths key (horder.mem_iff.1 hkey)
    have hapartOf : order.Pairwise (project.store.Apart t) :=
      (horder.pairwise_iff fun h => h.symm).2 hapart
    obtain ⟨news', hends, hnews'⟩ := ends_mapM
      (fun key hkey => serves_patchAll_one (hpathsOf key hkey)) hapartOf t.hasFilesFor_nothing
      fun _ _ => hclean
    obtain rfl : news' = news := hnews fun q contents =>
      ((hnews' q contents).trans (or_iff_right (Option.some_ne_none contents).symm)).trans
        (exists_congr fun key => and_congr_left fun _ => horder.mem_iff)
    rw [← hsame] at hends
    exact ⟨_, hends⟩
  · intro i key outcome hkey houtcome
    have hmem := List.mem_of_getElem? hkey
    rw [List.getElem?_map, hkey] at houtcome
    obtain rfl := Option.some.inj houtcome
    obtain ⟨alone, hends, -⟩ :=
      serves_patchAll_one (hpaths key hmem) .nothing t.hasFilesFor_nothing hclean
    rw [← hsame] at hends
    refine ⟨⟨_, hends⟩, fun hunusable => ?_⟩
    obtain ⟨hunedited, hwarns⟩ := hunusable.warns
    refine ⟨hwarns, fun q held hfinds => ?_⟩
    have hnone : news q = none := by
      refine Option.eq_none_iff_forall_ne_some.2 fun contents hcontents => ?_
      obtain ⟨other, hother, hedits⟩ := hlast.owned q contents hcontents
      obtain ⟨held', hfinds'⟩ := hedits.finds
      obtain ⟨j, hj⟩ := List.getElem?_of_mem hother
      by_cases hij : i = j
      · subst hij
        obtain rfl := Option.some.inj (hkey.symm.trans hj)
        exact hunedited q contents hedits
      · exact apart_of_getElem? hapart hij hkey hj q held held' hfinds hfinds'
    rw [Tree.fileAt_overwrite hlast.files, hnone, hfinds.fileAt]
    rfl

/-- A project with an entry file for each platform, both without text. -/
def blankEntryFiles : Tree :=
  ⟨[(⟨["project".toList]⟩, .directory),
    (⟨["project".toList, "MainApplication.kt".toList]⟩, .file []),
    (⟨["project".toList, "AppDelegate.swift".toList]⟩, .file [])]⟩

theorem batch_equals_one_by_one_blankEntryFiles :
    let project : Project := ⟨⟨⟨["project".toList]⟩⟩, false⟩
    (∀ key ∈ ["MainApplication.kt", "AppDelegate.swift"],
      ∃ p, project.store.pathOf blankEntryFiles key = .ok p) ∧
    project.store.Apart blankEntryFiles "MainApplication.kt" "AppDelegate.swift" ∧
    ∃ outcomes after,
      Ends (project.patchAll ["MainApplication.kt", "AppDelegate.swift"]) blankEntryFiles
        (.ok outcomes) after ∧
      ∃ answers, Ends (["AppDelegate.swift", "MainApplication.kt"].mapM
        fun key => project.patchAll [key]) blankEntryFiles (.ok answers) after := by
  intro project
  have hmain : project.store.Finds blankEntryFiles "MainApplication.kt"
      ⟨["project".toList, "MainApplication.kt".toList]⟩ [] :=
    .of_resolve (by decide) (by cbv) (by decide) (by cbv)
  have hdelegate : project.store.Finds blankEntryFiles "AppDelegate.swift"
      ⟨["project".toList, "AppDelegate.swift".toList]⟩ [] :=
    .of_resolve (by decide) (by cbv) (by decide) (by cbv)
  have hpaths : ∀ key ∈ ["MainApplication.kt", "AppDelegate.swift"],
      ∃ p, project.store.pathOf blankEntryFiles key = .ok p :=
    List.forall_mem_cons.2 ⟨hmain.imp fun _ h => h.1,
      List.forall_mem_singleton.2 (hdelegate.imp fun _ h => h.1)⟩
  have hapart : project.store.Apart blankEntryFiles "MainApplication.kt" "AppDelegate.swift" := by
    intro q held held' hfinds hfinds'
    exact absurd ((hmain.unique hfinds).1.trans (hfinds'.unique hdelegate).1) (by decide)
  obtain ⟨outcomes, after, -, -, hends, horder, -⟩ :=
    batch_equals_one_by_one hpaths (List.pairwise_pair.2 hapart)
  exact ⟨hpaths, hapart, outcomes, after, hends, horder _ (List.Perm.swap _ _ _)⟩

end BundleHook
