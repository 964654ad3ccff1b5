import BundleHook.Proofs.Outcome
import BundleHook.Proofs.Service.Duty

/-!
# Two runs side by side

Two pieces of work, each over a tree of its own, are alike when they come to the same and tell the
same. What they leave behind may differ, within a relation between trees. Work that is put together
in the same way from alike pieces is alike.

* `Work.Alike` — work side by side;
* `alike_resource`, `alike_patchPlatform` — the services of a run.
-/

namespace BundleHook

namespace Work

variable {α β : Type} {R S : Tree → Tree → Prop} {t t' : Tree}

/-- From the trees `t` and `t'` the works come to the same and tell the same, and the trees that they
leave are related. -/
def Alike (work other : Work α) (t t' : Tree) (R : Tree → Tree → Prop) : Prop :=
  ∀ told, ∃ result events after after', work.run ⟨t, told⟩ = (result, ⟨after, events⟩) ∧
    other.run ⟨t', told⟩ = (result, ⟨after', events⟩) ∧ R after after'

/-! ## Single steps -/

theorem alike_pure (a : α) (h : R t t') : Alike (pure a) (pure a) t t' R :=
  fun told => ⟨.ok a, told, t, t', rfl, rfl, h⟩

/-- Both changes are refused alike, or both are made. -/
theorem alike_change {step step' : Tree → Option StoreFault × Tree} (hfault : (step t).1 = (step' t').1)
    (h : R (step t).2 (step' t').2) : Alike (change step) (change step') t t' R := by
  intro told
  rw [run_change, run_change, hfault]
  exact ⟨_, told, _, _, rfl, rfl, h⟩

/-! ## Steps one after the other -/

section Sequence

variable {work other : Work α} (h : Alike work other t t' R)

include h

theorem Alike.run (told : List LogEvent) :
    (work.run ⟨t, told⟩).1 = (other.run ⟨t', told⟩).1 ∧
      (work.run ⟨t, told⟩).2.events = (other.run ⟨t', told⟩).2.events ∧
      R (work.run ⟨t, told⟩).2.tree (other.run ⟨t', told⟩).2.tree := by
  obtain ⟨result, events, after, after', hrun, hrun', hR⟩ := h told
  rw [hrun, hrun']
  exact ⟨rfl, rfl, hR⟩

theorem Alike.mono (hmore : ∀ u u', R u u' → S u u') : Alike work other t t' S := by
  intro told
  obtain ⟨result, events, after, after', hrun, hrun', hR⟩ := h told
  exact ⟨result, events, after, after', hrun, hrun', hmore _ _ hR⟩

theorem Alike.bind {next next' : α → Work β} (hmore : ∀ u u', R u u' → S u u')
    (hnext : ∀ a u u', R u u' → Alike (next a) (next' a) u u' S) :
    Alike (work >>= next) (other >>= next') t t' S := by
  intro told
  obtain ⟨result, events, after, after', hrun, hrun', hR⟩ := h told
  rw [run_bind, run_bind, hrun, hrun']
  rcases result with hindrance | a
  · exact ⟨_, events, after, after', rfl, rfl, hmore _ _ hR⟩
  · exact hnext a after after' hR events

theorem Alike.caught (expected : Hindrance → Bool) :
    Alike (work.caught expected) (other.caught expected) t t' R := by
  intro told
  obtain ⟨result, events, after, after', hrun, hrun', hR⟩ := h told
  rw [run_caught, run_caught, hrun, hrun']
  rcases result with hindrance | a
  · exact ⟨_, events, after, after', rfl, rfl, hR⟩
  · exact ⟨_, events, after, after', rfl, rfl, hR⟩

theorem Alike.inContext (fields : List (String × Datum)) :
    Alike (work.inContext fields) (other.inContext fields) t t' R := by
  intro told
  obtain ⟨result, events, after, after', hrun, hrun', hR⟩ := h []
  rw [run_inContext, run_inContext, hrun, hrun']
  exact ⟨_, _, after, after', rfl, rfl, hR⟩

end Sequence

/-- What is told first makes no difference. -/
theorem Alike.after_tell {work other : Work α} (h : Alike work other t t' R) (event : LogEvent) :
    Alike (tell event >>= fun _ => work) (tell event >>= fun _ => other) t t' R :=
  fun told => h (told ++ [event])

theorem alike_tellAll {δ : Type} (event : δ → LogEvent) (told : List δ) (h : R t t') :
    Alike (told.forM fun d => tell (event d)) (told.forM fun d => tell (event d)) t t' R := by
  induction told with
  | nil => exact alike_pure () h
  | cons d told ih => exact ih.after_tell (event d)

/-- What is the same in both trees is asked for. -/
theorem alike_ask_bind {question question' : Tree → Except Hindrance α} {next next' : α → Work β}
    (hsame : question t = question' t') (h : R t t')
    (hnext : ∀ a, question t = .ok a → Alike (next a) (next' a) t t' R) :
    Alike (ask question >>= next) (ask question' >>= next') t t' R := by
  intro told
  rw [run_bind, run_bind, run_ask, run_ask, ← hsame]
  rcases hanswer : question t with hindrance | a
  · exact ⟨_, told, t, t', rfl, rfl, h⟩
  · exact hnext a hanswer told

/-- So it is when a hindrance may be caught. -/
theorem alike_caught_ask_bind {question question' : Tree → Except Hindrance α}
    {next next' : Except Hindrance α → Work β} (expected : Hindrance → Bool)
    (hsame : question t = question' t') (h : R t t')
    (hnext : ∀ answer, question t = answer → Alike (next answer) (next' answer) t t' R) :
    Alike ((ask question).caught expected >>= next) ((ask question').caught expected >>= next') t t'
      R := by
  intro told
  rw [run_bind, run_bind, run_caught, run_caught, run_ask, run_ask, ← hsame]
  rcases hanswer : question t with hindrance | a
  · by_cases hexpected : expected hindrance = true
    · simp only [hexpected, if_true]
      exact hnext _ hanswer told
    · simp only [hexpected]
      exact ⟨_, told, t, t', rfl, rfl, h⟩
  · exact hnext _ hanswer told

end Work

open Work

/-! ## Services -/

namespace Project

/-- The strings that are there are read by one question. -/
theorem currentStrings_eq (project : Project) (key : String) :
    project.currentStrings key = askFiles (project.store.textOrNothing · key) := by
  refine ExceptT.ext (funext fun world => ?_)
  unfold currentStrings Store.textOrNothing askFiles
  rw [run_bind, run_ask, run_ask]
  dsimp only
  rcases hhas : project.store.has world.tree key with fault | there
  · rfl
  · cases there with
    | false => rfl
    | true =>
        simp only [mapError_ok, ok_bind, if_true]
        exact run_ask world _

variable {R : Tree → Tree → Prop} {t t' : Tree} (h : R t t')

include h

theorem alike_save {project : Project} {changed : Bool}
    {write write' : Tree → Option StoreFault × Tree}
    (hwrite : changed = true → project.dryRun = false →
      (write t).1 = (write' t').1 ∧ R (write t).2 (write' t').2) :
    Alike (project.save changed write) (project.save changed write') t t' R := by
  unfold save
  by_cases hwritten : (changed && !project.dryRun) = true
  · obtain ⟨hchanged, hreal⟩ := Bool.and_eq_true_iff.1 hwritten
    obtain ⟨hfault, hR⟩ := hwrite hchanged (by simpa using hreal)
    simp only [hwritten, if_true]
    exact (alike_change hfault hR).bind (fun _ _ hR => hR) fun _ _ _ hR => alike_pure _ hR
  · simp only [hwritten]
    exact alike_pure _ h

omit h in
theorem alike_conclude {resource : Resource} {key : String} {work other : Work Change}
    (hwork : Alike work other t t' R) :
    Alike (resource.conclude key work) (resource.conclude key other) t t' R := by
  unfold Resource.conclude
  refine (hwork.caught _).bind (fun _ _ hR => hR) fun result u u' hR => ?_
  cases result with
  | error hindrance => exact (alike_pure _ hR).after_tell _
  | ok change => exact (alike_pure _ hR).after_tell _

/-- A resource is read alike and updated in two ways, which fail alike or both change it. -/
theorem alike_resource {project : Project} {α : Type} [DecidableEq α] (resource : Resource)
    {key : String} {read read' : Tree → Except StoreFault α} {update update' : α → Except Hindrance α}
    {octets : α → Contents} (hread : read t = read' t')
    (hupdate : ∀ current, read t = .ok current →
      (∃ hindrance, update current = .error hindrance ∧ update' current = .error hindrance) ∨
      ∃ updated updated', update current = .ok updated ∧ update' current = .ok updated' ∧
        updated ≠ current ∧ updated' ≠ current ∧
        (project.dryRun = false →
          (project.store.write t key (octets updated)).1 =
              (project.store.write t' key (octets updated')).1 ∧
            R (project.store.write t key (octets updated)).2
              (project.store.write t' key (octets updated')).2)) :
    Alike
      (resource.conclude key do
        let current ← askFiles read
        let updated ← ask fun _ => update current
        project.save (updated ≠ current) (project.store.write · key (octets updated)))
      (resource.conclude key do
        let current ← askFiles read'
        let updated ← ask fun _ => update' current
        project.save (updated ≠ current) (project.store.write · key (octets updated))) t t' R := by
  refine alike_conclude (alike_ask_bind (by simp only [hread]) h fun current hcurrent => ?_)
  rcases hupdate current (mapError_eq_ok.1 hcurrent) with ⟨hindrance, hfirst, hsecond⟩ |
    ⟨updated, updated', hfirst, hsecond, hnew, hnew', hwrite⟩
  · simp only [hfirst, hsecond]
    exact alike_ask_bind rfl h fun _ hnone => nomatch hnone
  · intro told
    simp only [hfirst, hsecond, run_bind, run_ask, hnew, hnew', decide_true, ne_eq, not_false_eq_true]
    exact alike_save h (fun _ => hwrite) told

theorem alike_patchAt {project : Project} (platform : Platform) {key : String}
    (hread : project.store.readAsText t key = project.store.readAsText t' key)
    (hwrite : ∀ text contents, project.store.readAsText t key = .ok text → project.dryRun = false →
      (project.store.write t key contents).1 = (project.store.write t' key contents).1 ∧
        R (project.store.write t key contents).2 (project.store.write t' key contents).2) :
    Alike (project.patchAt platform key) (project.patchAt platform key) t t' R := by
  unfold patchAt
  refine alike_ask_bind (by simp only [hread]) h fun text htext => ?_
  -- Telling leaves the two trees as they are.
  refine (alike_tellAll Diagnostic.event _ (R := fun u u' => u = t ∧ u' = t') ⟨rfl, rfl⟩).bind
    (by rintro _ _ ⟨rfl, rfl⟩; exact h) ?_
  rintro - _ _ ⟨rfl, rfl⟩
  refine (alike_save h fun _ hreal => hwrite text _ (mapError_eq_ok.1 htext) hreal).bind
    (fun _ _ hR => hR) fun change u u' hR => ?_
  exact (alike_pure _ hR).after_tell _

theorem alike_patchPlatform {project : Project} (platform : Platform)
    (hplace : Location.ofEntryFile project.store t platform =
      Location.ofEntryFile project.store t' platform)
    (hpatch : ∀ key, Location.ofEntryFile project.store t platform = .ok key →
      Alike (project.patchAt platform key) (project.patchAt platform key) t t' R) :
    Alike (project.patchPlatform platform) (project.patchPlatform platform) t t' R := by
  unfold patchPlatform
  refine alike_caught_ask_bind _ hplace h fun answer hanswer => ?_
  cases answer with
  | error hindrance => exact (alike_pure _ h).after_tell _
  | ok key =>
      refine ((hpatch key hanswer).caught _).bind (fun _ _ hR => hR) fun result u u' hR => ?_
      cases result with
      | error hindrance => exact (alike_pure _ hR).after_tell _
      | ok patched => exact alike_pure _ hR

end Project

end BundleHook
