import BundleHook.Service.Work

/-!
# How work ends

Work never reads what has been told, so that how it ends depends on the tree alone. `Work.Ends` says
how, and is put together along the way the work is.
-/

namespace BundleHook.Work

variable {α β : Type}

/-- From the tree `t` the work ends with `result` and leaves the tree `after`, whatever was told
before; what was told stays. -/
def Ends (work : Work α) (t : Tree) (result : Except Hindrance α) (after : Tree) : Prop :=
  ∀ told, ∃ more, work.run ⟨t, told⟩ = (result, ⟨after, told ++ more⟩)

theorem Ends.run {work : Work α} {t after : Tree} {result : Except Hindrance α}
    (h : work.Ends t result after) (told : List LogEvent) :
    (work.run ⟨t, told⟩).1 = result ∧ (work.run ⟨t, told⟩).2.tree = after := by
  obtain ⟨more, hrun⟩ := h told
  rw [hrun]
  exact ⟨rfl, rfl⟩

/-! ## Running -/

section Running

variable (world : World)

theorem run_bind (work : Work α) (next : α → Work β) :
    (work >>= next).run world =
      match work.run world with
      | (.ok a, after) => (next a).run after
      | (.error hindrance, after) => (.error hindrance, after) := by
  show ExceptT.bindCont next (work.run world).1 (work.run world).2 = _
  rcases work.run world with ⟨_ | _, after⟩ <;> rfl

theorem run_get : (get : Work World).run world = (.ok world, world) := rfl

theorem run_ask (question : Tree → Except Hindrance α) :
    (ask question).run world = (question world.tree, world) := by
  rcases hanswer : question world.tree with hindrance | answer <;>
    simp only [ask, run_bind, run_get, hanswer] <;> rfl

theorem run_change (step : Tree → Option StoreFault × Tree) :
    (change step).run world =
      (match (step world.tree).1 with
        | some fault => .error (.store fault)
        | none => .ok (), { world with tree := (step world.tree).2 }) := by
  show (match (step world.tree).1 with
    | some fault => (throw (Hindrance.store fault) : Work Unit)
    | none => pure ()) { world with tree := (step world.tree).2 } = _
  cases (step world.tree).1 <;> rfl

theorem run_caught (work : Work α) (expected : Hindrance → Bool) :
    (work.caught expected).run world =
      match work.run world with
      | (.ok a, after) => (.ok (.ok a), after)
      | (.error hindrance, after) =>
        (if expected hindrance then .ok (.error hindrance) else .error hindrance, after) := by
  rcases hrun : work.run world with ⟨hindrance | result, after⟩ <;>
    simp only [caught, ExceptT.run_mk, bind, StateT.bind, hrun] <;> rfl

theorem run_inContext (work : Work α) (fields : List (String × Datum)) :
    (work.inContext fields).run world =
      ((work.run ⟨world.tree, []⟩).1,
        ⟨(work.run ⟨world.tree, []⟩).2.tree, world.events ++
          (work.run ⟨world.tree, []⟩).2.events.map fun event =>
            { event with fields := event.fields ++ fields }⟩) := rfl

end Running

/-! ## Single steps -/

theorem ends_pure (a : α) (t : Tree) : Ends (pure a) t (.ok a) t :=
  fun told => ⟨[], by rw [List.append_nil]; rfl⟩

theorem ends_throw (hindrance : Hindrance) (t : Tree) :
    Ends (throw hindrance : Work α) t (.error hindrance) t :=
  fun told => ⟨[], by rw [List.append_nil]; rfl⟩

theorem ends_tell (event : LogEvent) (t : Tree) : Ends (tell event) t (.ok ()) t :=
  fun _ => ⟨[event], rfl⟩

theorem ends_ask {question : Tree → Except Hindrance α} {t : Tree} {result : Except Hindrance α}
    (h : question t = result) : Ends (ask question) t result t := by
  refine fun told => ⟨[], ?_⟩
  rw [List.append_nil, run_ask, h]

theorem ends_askFiles (question : Tree → Except StoreFault α) (t : Tree) :
    Ends (askFiles question) t ((question t).mapError .store) t :=
  ends_ask rfl

/-- What is left of a change is the tree behind it, also when it was refused. -/
theorem ends_change (step : Tree → Option StoreFault × Tree) (t : Tree) :
    Ends (change step) t
      (match (step t).1 with
        | some fault => .error (.store fault)
        | none => .ok ()) (step t).2 := by
  refine fun told => ⟨[], ?_⟩
  rw [List.append_nil, run_change]

/-! ## Steps one after the other -/

section Sequence

variable {work : Work α} {t between after : Tree}

theorem Ends.bind {next : α → Work β} {a : α} {result : Except Hindrance β}
    (h : work.Ends t (.ok a) between) (hnext : (next a).Ends between result after) :
    Ends (work >>= next) t result after := by
  intro told
  obtain ⟨first, hfirst⟩ := h told
  obtain ⟨second, hsecond⟩ := hnext (told ++ first)
  refine ⟨first ++ second, ?_⟩
  rw [run_bind, hfirst, ← List.append_assoc]
  exact hsecond

theorem Ends.bind_error {next : α → Work β} {hindrance : Hindrance}
    (h : work.Ends t (.error hindrance) after) :
    Ends (work >>= next) t (.error hindrance) after := by
  intro told
  obtain ⟨more, hmore⟩ := h told
  refine ⟨more, ?_⟩
  rw [run_bind, hmore]

/-- Telling something first changes nothing of how work ends. -/
theorem Ends.after_tell {result : Except Hindrance α} (h : work.Ends t result after)
    (event : LogEvent) : Ends (tell event >>= fun _ => work) t result after :=
  (ends_tell event t).bind h

theorem ends_tellAll {δ : Type} (event : δ → LogEvent) (told : List δ) (t : Tree) :
    Ends (told.forM fun d => tell (event d)) t (.ok ()) t := by
  induction told with
  | nil => exact ends_pure () t
  | cons d told ih => exact ih.after_tell (event d)

theorem Ends.caught {a : α} (h : work.Ends t (.ok a) after) (expected : Hindrance → Bool) :
    Ends (work.caught expected) t (.ok (.ok a)) after := by
  intro told
  obtain ⟨more, hmore⟩ := h told
  refine ⟨more, ?_⟩
  rw [run_caught, hmore]

/-- A hindrance that is expected is caught, and any other goes on. -/
theorem Ends.caught_error {hindrance : Hindrance} (h : work.Ends t (.error hindrance) after)
    (expected : Hindrance → Bool) :
    Ends (work.caught expected) t
      (if expected hindrance then .ok (.error hindrance) else .error hindrance) after := by
  intro told
  obtain ⟨more, hmore⟩ := h told
  refine ⟨more, ?_⟩
  rw [run_caught, hmore]

/-- What is done with a caught hindrance does not happen when the hindrance is not expected. -/
theorem Ends.bind_caught_error {next : Except Hindrance α → Work β} {hindrance : Hindrance} {b : β}
    (h : work.Ends t (.error hindrance) after) (expected : Hindrance → Bool)
    (hnext : (next (.error hindrance)).Ends after (.ok b) after) :
    Ends (work.caught expected >>= next) t
      (if expected hindrance then .ok b else .error hindrance) after := by
  have hcaught := h.caught_error expected
  by_cases hexpected : expected hindrance = true
  · rw [if_pos hexpected] at hcaught ⊢
    exact hcaught.bind hnext
  · rw [if_neg hexpected] at hcaught ⊢
    exact hcaught.bind_error

theorem Ends.inContext {result : Except Hindrance α} (h : work.Ends t result after)
    (fields : List (String × Datum)) : Ends (work.inContext fields) t result after := by
  intro told
  obtain ⟨more, hmore⟩ := h []
  refine ⟨more.map fun event => { event with fields := event.fields ++ fields }, ?_⟩
  rw [run_inContext, hmore]
  rfl

end Sequence

end BundleHook.Work
