import Mathlib.Data.List.Forall2
import Mathlib.Data.List.Nodup

/-!
# Entries by key

Laws of looking up a key in a list of entries, and of lists that correspond item by item.
-/

namespace BundleHook

variable {κ α : Type} [BEq κ] [LawfulBEq κ]

theorem mem_of_lookup {entries : List (κ × α)} {key : κ} {value : α}
    (h : entries.lookup key = some value) : (key, value) ∈ entries := by
  obtain ⟨before, behind, rfl, -⟩ := List.lookup_eq_some_iff.1 h
  simp

/-- Where no key occurs twice, a lookup finds every entry. -/
theorem lookup_of_mem {entries : List (κ × α)} (hnodup : (entries.map (·.1)).Nodup) {key : κ}
    {value : α} (h : (key, value) ∈ entries) : entries.lookup key = some value := by
  obtain ⟨before, behind, rfl⟩ := List.append_of_mem h
  refine List.lookup_eq_some_iff.2 ⟨before, behind, rfl, fun entry hentry => ?_⟩
  rw [List.map_append, List.nodup_append] at hnodup
  have hne := hnodup.2.2 entry.1 (List.mem_map_of_mem hentry) key (by simp)
  simpa using hne.symm

theorem lookup_isSome {entries : List (κ × α)} {key : κ} :
    (entries.lookup key).isSome ↔ key ∈ entries.map (·.1) := by
  rw [← not_iff_not, Option.not_isSome_iff_eq_none, List.lookup_eq_none_iff]
  simp only [List.mem_map, not_exists, not_and]
  constructor
  · rintro h entry hentry rfl
    simpa using h entry hentry
  · intro h entry hentry
    simpa using fun heq => h entry hentry heq.symm

/-- Where values are changed by their keys, a key is looked up with its value changed. -/
theorem lookup_map {β : Type} (f : κ → α → β) (entries : List (κ × α)) (key : κ) :
    (entries.map fun entry => (entry.1, f entry.1 entry.2)).lookup key =
      (entries.lookup key).map (f key) := by
  induction entries with
  | nil => rfl
  | cons entry entries ih =>
      obtain ⟨known, value⟩ := entry
      rw [List.map_cons, List.lookup_cons, List.lookup_cons, ih]
      cases hknown : key == known with
      | true => rw [eq_of_beq hknown]; rfl
      | false => rfl

theorem nodup_eraseDups (xs : List κ) : xs.eraseDups.Nodup := by
  induction hlength : xs.length using Nat.strongRecOn generalizing xs with
  | ind n ih =>
    cases xs with
    | nil => exact List.nodup_nil
    | cons x xs =>
        have hless : (xs.filter fun y => !y == x).length < n :=
          Nat.lt_of_le_of_lt (List.length_filter_le _ _) (by simp [← hlength])
        rw [List.eraseDups_cons, List.nodup_cons]
        exact ⟨by simp [List.mem_eraseDups], ih _ hless _ rfl⟩

theorem exists_left_of_forall₂ {β : Type} {R : α → β → Prop} {xs : List α} {ys : List β}
    (h : List.Forall₂ R xs ys) {y : β} (hy : y ∈ ys) : ∃ x ∈ xs, R x y := by
  induction h with
  | nil => cases hy
  | @cons x y' xs ys hR _ ih =>
      rcases List.mem_cons.1 hy with rfl | hy
      · exact ⟨x, List.mem_cons_self, hR⟩
      · obtain ⟨x', hx', hR'⟩ := ih hy
        exact ⟨x', List.mem_cons_of_mem x hx', hR'⟩

theorem getElem?_of_forall₂ {β : Type} {R : α → β → Prop} {xs : List α} {ys : List β}
    (h : List.Forall₂ R xs ys) {index : Nat} {x : α} (hx : xs[index]? = some x) :
    ∃ y, ys[index]? = some y ∧ R x y := by
  induction h generalizing index with
  | nil => cases hx
  | @cons x' y' xs ys hR _ ih =>
      cases index with
      | zero =>
          obtain rfl : x' = x := by simpa using hx
          exact ⟨y', rfl, hR⟩
      | succ index => exact ih hx

/-- Where corresponding items are wanted alike, the first wanted ones correspond. -/
theorem find?_of_forall₂ {β : Type} {R : α → β → Prop} {xs : List α} {ys : List β}
    (h : List.Forall₂ R xs ys) {p : α → Bool} {q : β → Bool} (hpq : ∀ x y, R x y → p x = q y)
    {x : α} (hx : xs.find? p = some x) : ∃ y, ys.find? q = some y ∧ R x y := by
  induction h with
  | nil => cases hx
  | @cons x' y' xs ys hR _ ih =>
      rw [List.find?_cons] at hx ⊢
      rw [← hpq x' y' hR]
      split at hx
      · obtain rfl := Option.some.inj hx
        exact ⟨y', rfl, hR⟩
      · exact ih hx

end BundleHook
