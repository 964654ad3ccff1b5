import Mathlib.Data.List.Basic

/-!
# Lists of questions

A list of questions that may fail is answered when each of them is, and then by the answers to each
of them.
-/

namespace BundleHook.Glob

section Questions

variable {ε α β : Type} {f : α → Except ε β} {p : α → Except ε Bool}

theorem bind_eq_ok {x : Except ε α} {next : α → Except ε β} {y : β} :
    (x >>= next) = .ok y ↔ ∃ a, x = .ok a ∧ next a = .ok y := by
  rcases x with e | a <;> simp [bind, Except.bind]

/-- All questions are answered, the first one and the others. -/
theorem mapM_cons_eq_ok {x : α} {xs : List α} {ys : List β} :
    (x :: xs).mapM f = .ok ys ↔
      ∃ y rest, f x = .ok y ∧ xs.mapM f = .ok rest ∧ ys = y :: rest := by
  rw [List.mapM_cons]
  rcases f x with e | y
  · simp [bind, Except.bind]
  · rcases xs.mapM f with e | rest <;> simp [bind, Except.bind, pure, Except.pure, eq_comm]

/-- The same answers to each question are the same answers together. -/
theorem mapM_congr {g : α → Except ε β} {xs : List α} (h : ∀ x ∈ xs, f x = g x) :
    xs.mapM f = xs.mapM g := by
  induction xs with
  | nil => rfl
  | cons x xs ih =>
      obtain ⟨hx, hxs⟩ := List.forall_mem_cons.1 h
      rw [List.mapM_cons, List.mapM_cons, hx, ih hxs]

theorem mem_of_mapM {xs : List α} {ys : List β} (h : xs.mapM f = .ok ys) (y : β) :
    y ∈ ys ↔ ∃ x ∈ xs, f x = .ok y := by
  induction xs generalizing ys with
  | nil =>
      obtain rfl := Except.ok.inj h
      simp
  | cons x xs ih =>
      obtain ⟨first, rest, hfirst, hrest, rfl⟩ := mapM_cons_eq_ok.1 h
      simp [ih hrest, hfirst, eq_comm]

theorem exists_mapM_iff {xs : List α} :
    (∃ ys, xs.mapM f = .ok ys) ↔ ∀ x ∈ xs, ∃ y, f x = .ok y := by
  induction xs with
  | nil => exact ⟨fun _ => List.forall_mem_nil _, fun _ => ⟨[], rfl⟩⟩
  | cons x xs ih =>
      rw [List.forall_mem_cons, ← ih]
      constructor
      · rintro ⟨ys, h⟩
        obtain ⟨y, rest, hy, hrest, -⟩ := mapM_cons_eq_ok.1 h
        exact ⟨⟨y, hy⟩, rest, hrest⟩
      · rintro ⟨⟨y, hy⟩, rest, hrest⟩
        exact ⟨y :: rest, mapM_cons_eq_ok.2 ⟨y, rest, hy, hrest, rfl⟩⟩

theorem mem_of_mapM_flatten {g : α → Except ε (List β)} {xs : List α} {ys : List β}
    (h : (do let found ← xs.mapM g; return found.flatten) = .ok ys) (y : β) :
    y ∈ ys ↔ ∃ x ∈ xs, ∃ list, g x = .ok list ∧ y ∈ list := by
  rcases hlists : xs.mapM g with e | lists
  · rw [hlists] at h
    cases h
  · rw [hlists] at h
    obtain rfl : lists.flatten = ys := Except.ok.inj h
    rw [List.mem_flatten]
    constructor
    · rintro ⟨list, hlist, hy⟩
      obtain ⟨x, hx, hgx⟩ := (mem_of_mapM hlists list).1 hlist
      exact ⟨x, hx, list, hgx, hy⟩
    · rintro ⟨x, hx, list, hgx, hy⟩
      exact ⟨list, (mem_of_mapM hlists list).2 ⟨x, hx, hgx⟩, hy⟩

theorem exists_mapM_flatten_iff {g : α → Except ε (List β)} {xs : List α} :
    (∃ ys, (do let found ← xs.mapM g; return found.flatten) = .ok ys) ↔
      ∀ x ∈ xs, ∃ list, g x = .ok list := by
  rw [← exists_mapM_iff]
  rcases xs.mapM g with e | lists <;> simp [bind, Except.bind, pure, Except.pure]

/-- Fewer questions with lesser answers are answered too, and have lesser answers together. -/
theorem mapM_flatten_of_fewer {f g : α → Except ε (List β)} {fewer xs : List α} {later : List β}
    {good : β → Prop} (h : (do let found ← xs.mapM g; return found.flatten) = .ok later)
    (heach : ∀ x ∈ fewer, x ∈ xs ∧ ∀ list, g x = .ok list →
      ∃ found, f x = .ok found ∧ ∀ y ∈ found, y ∈ list ∧ good y) :
    ∃ found, (do let found ← fewer.mapM f; return found.flatten) = .ok found ∧
      ∀ y ∈ found, y ∈ later ∧ good y := by
  have hanswer (x : α) (hx : x ∈ fewer) :
      ∃ found, f x = .ok found ∧ ∀ y ∈ found, y ∈ later ∧ good y := by
    obtain ⟨hmem, hless⟩ := heach x hx
    obtain ⟨list, hlist⟩ := exists_mapM_flatten_iff.1 ⟨later, h⟩ x hmem
    obtain ⟨found, hfound, hall⟩ := hless list hlist
    refine ⟨found, hfound, fun y hy => ⟨?_, (hall y hy).2⟩⟩
    exact (mem_of_mapM_flatten h y).2 ⟨x, hmem, list, hlist, (hall y hy).1⟩
  obtain ⟨found, hfound⟩ := exists_mapM_flatten_iff.2 fun x hx =>
    (hanswer x hx).imp fun list hlist => hlist.1
  refine ⟨found, hfound, fun y hy => ?_⟩
  obtain ⟨x, hx, list, hlist, hmem⟩ := (mem_of_mapM_flatten hfound y).1 hy
  obtain ⟨list', hlist', hall⟩ := hanswer x hx
  obtain rfl := Except.ok.inj (hlist.symm.trans hlist')
  exact hall y hmem

theorem filterAuxM_cons_eq_ok {x : α} {xs kept ys : List α} :
    (x :: xs).filterAuxM p kept = .ok ys ↔
      ∃ b, p x = .ok b ∧ xs.filterAuxM p (if b then x :: kept else kept) = .ok ys := by
  rw [List.filterAuxM]
  rcases p x with e | b
  · simp [bind, Except.bind]
  · cases b <;> simp [bind, Except.bind]

theorem filterAuxM_congr {q : α → Except ε Bool} {xs kept : List α} (h : ∀ x ∈ xs, p x = q x) :
    xs.filterAuxM p kept = xs.filterAuxM q kept := by
  induction xs generalizing kept with
  | nil => rfl
  | cons x xs ih =>
      obtain ⟨hx, hxs⟩ := List.forall_mem_cons.1 h
      simp only [List.filterAuxM, hx, ih hxs]

theorem filterM_congr {q : α → Except ε Bool} {xs : List α} (h : ∀ x ∈ xs, p x = q x) :
    xs.filterM p = xs.filterM q := by
  rw [List.filterM, List.filterM, filterAuxM_congr h]

theorem mem_of_filterAuxM {xs kept ys : List α} (h : xs.filterAuxM p kept = .ok ys) (y : α) :
    y ∈ ys ↔ y ∈ kept ∨ y ∈ xs ∧ p y = .ok true := by
  induction xs generalizing kept with
  | nil =>
      obtain rfl := Except.ok.inj h
      simp
  | cons x xs ih =>
      obtain ⟨b, hb, hrest⟩ := filterAuxM_cons_eq_ok.1 h
      rw [ih hrest]
      cases b with
      | true => grind
      | false => grind

theorem exists_filterAuxM_iff {xs kept : List α} :
    (∃ ys, xs.filterAuxM p kept = .ok ys) ↔ ∀ x ∈ xs, ∃ b, p x = .ok b := by
  induction xs generalizing kept with
  | nil => exact ⟨fun _ => List.forall_mem_nil _, fun _ => ⟨kept, rfl⟩⟩
  | cons x xs ih =>
      simp only [List.forall_mem_cons, filterAuxM_cons_eq_ok]
      constructor
      · rintro ⟨ys, b, hb, hrest⟩
        exact ⟨⟨b, hb⟩, ih.1 ⟨ys, hrest⟩⟩
      · rintro ⟨⟨b, hb⟩, hrest⟩
        obtain ⟨ys, hys⟩ := ih.2 hrest
        exact ⟨ys, b, hb, hys⟩

theorem mem_of_filterM {xs ys : List α} (h : xs.filterM p = .ok ys) (y : α) :
    y ∈ ys ↔ y ∈ xs ∧ p y = .ok true := by
  unfold List.filterM at h
  rcases hkept : xs.filterAuxM p [] with e | kept
  · rw [hkept] at h
    cases h
  · rw [hkept] at h
    obtain rfl := Except.ok.inj h
    rw [List.mem_reverse, mem_of_filterAuxM hkept]
    simp

theorem exists_filterM_iff {xs : List α} :
    (∃ ys, xs.filterM p = .ok ys) ↔ ∀ x ∈ xs, ∃ b, p x = .ok b := by
  rw [← @exists_filterAuxM_iff _ _ p xs []]
  unfold List.filterM
  rcases xs.filterAuxM p [] with e | kept <;> simp [bind, Except.bind, pure, Except.pure]

end Questions

end BundleHook.Glob
