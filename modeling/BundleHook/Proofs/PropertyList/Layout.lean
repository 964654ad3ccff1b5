import Mathlib.Data.List.Flatten
import BundleHook.PropertyList.Archive
import BundleHook.Proofs.Entries

/-!
# The objects of a written archive

The objects to write are found by looking at references one after the other. Each step looks at a
reference, or replaces it by the references to the parts of a new object, so that there are enough
steps for all of them: at the end every reference that the objects name has its place.
-/

namespace BundleHook.PropertyList.Archive

variable {a : Archive} {met : List (Identity × BinaryObject)} {P : Nat → Prop}

/-! ## Work that is left -/

/-- The references in the objects that are not met yet. -/
def unmetParts (a : Archive) (met : List (Identity × BinaryObject)) : List Nat :=
  (a.objects.filter fun entry => a.identity entry.1 ∉ met.map (·.1)).flatMap (·.2.parts)

/-- Meeting an object takes its parts from those that are not met. -/
theorem length_unmetParts_append {ref : Nat} {object : BinaryObject}
    (hobject : a.object? ref = some object) (hnew : a.identity ref ∉ met.map (·.1)) :
    (a.unmetParts (met ++ [(a.identity ref, object)])).length + object.parts.length ≤
      (a.unmetParts met).length := by
  obtain ⟨before, behind, hobjects⟩ := List.append_of_mem (mem_of_lookup hobject)
  have hmono (objects : List (Nat × BinaryObject)) :
      ((objects.filter fun entry =>
          a.identity entry.1 ∉ (met ++ [(a.identity ref, object)]).map (·.1)).flatMap
            (·.2.parts)).length ≤
        ((objects.filter fun entry => a.identity entry.1 ∉ met.map (·.1)).flatMap
          (·.2.parts)).length := by
    refine ((List.monotone_filter_right objects fun entry hentry => ?_).flatMap _).length_le
    simp only [List.map_append, List.mem_append, not_or, decide_eq_true_eq] at hentry ⊢
    exact hentry.1
  have hbefore := hmono before
  have hbehind := hmono behind
  unfold unmetParts
  rw [hobjects, List.filter_append, List.filter_append,
    List.filter_cons_of_neg (by simp), List.filter_cons_of_pos (by simpa using hnew)]
  simp only [List.flatMap_append, List.flatMap_cons, List.length_append]
  omega

theorem foldl_parts (objects : List (Nat × BinaryObject)) (n : Nat) :
    objects.foldl (fun n (_, object) => n + object.parts.length) n =
      n + (objects.flatMap (·.2.parts)).length := by
  induction objects generalizing n with
  | nil => rfl
  | cons entry objects ih =>
      rw [List.foldl_cons, ih, List.flatMap_cons, List.length_append, Nat.add_assoc]

/-! ## Steps -/

/-- The objects come from references that are so. -/
def ComeFrom (a : Archive) (P : Nat → Prop) (met : List (Identity × BinaryObject)) : Prop :=
  ∀ entry ∈ met, ∃ ref, P ref ∧ a.object? ref = some entry.2 ∧ a.identity ref = entry.1

/-- The references that the objects name have their places among them, except those that are still
to be looked at. -/
def ClosedBut (a : Archive) (todo : List Nat) (met : List (Identity × BinaryObject)) : Prop :=
  ∀ entry ∈ met, ∀ part ∈ entry.2.parts, a.identity part ∈ met.map (·.1) ∨ part ∈ todo

theorem laidOut_spec (hP : ∀ ref, P ref → ∃ o, a.object? ref = some o ∧ ∀ part ∈ o.parts, P part)
    {steps : Nat} {todo : List Nat} (htodo : ∀ ref ∈ todo, P ref) (hcome : a.ComeFrom P met)
    (hclosed : a.ClosedBut todo met) (hsteps : todo.length + (a.unmetParts met).length ≤ steps) :
    met <+: a.laidOut steps met todo ∧ a.ComeFrom P (a.laidOut steps met todo) ∧
      (∀ ref ∈ todo, a.identity ref ∈ (a.laidOut steps met todo).map (·.1)) ∧
      a.ClosedBut [] (a.laidOut steps met todo) := by
  induction steps generalizing met todo with
  | zero =>
      obtain rfl : todo = [] := List.eq_nil_of_length_eq_zero (by omega)
      exact ⟨List.prefix_rfl, hcome, nofun, hclosed⟩
  | succ steps ih =>
    cases todo with
    | nil => exact ⟨List.prefix_rfl, hcome, nofun, hclosed⟩
    | cons ref others =>
      obtain ⟨href, hothers⟩ := List.forall_mem_cons.1 htodo
      rw [List.length_cons] at hsteps
      rw [laidOut]
      by_cases hold : a.identity ref ∈ met.map (·.1)
      · -- The reference has its place: what was left to it is there.
        have hany : (met.any fun entry => entry.1 = a.identity ref) = true := by
          obtain ⟨entry, hentry, heq⟩ := List.mem_map.1 hold
          exact List.any_eq_true.2 ⟨entry, hentry, by simpa using heq⟩
        have hclosed' : a.ClosedBut others met := fun entry hentry part hpart =>
          (hclosed entry hentry part hpart).elim .inl fun hmem =>
            (List.mem_cons.1 hmem).elim (fun heq => .inl (heq ▸ hold)) .inr
        obtain ⟨hbegins, hcome', hmet, hresult⟩ := ih hothers hcome hclosed' (by omega)
        rw [if_pos hany]
        exact ⟨hbegins, hcome', List.forall_mem_cons.2 ⟨(hbegins.map _).subset hold, hmet⟩, hresult⟩
      · have hany : ¬(met.any fun entry => entry.1 = a.identity ref) = true := by
          rw [List.any_eq_true]
          rintro ⟨entry, hentry, heq⟩
          exact hold (List.mem_map.2 ⟨entry, hentry, by simpa using heq⟩)
        obtain ⟨object, hobject, hparts⟩ := hP ref href
        have hless := length_unmetParts_append hobject hold
        have hcome' : a.ComeFrom P (met ++ [(a.identity ref, object)]) := fun entry hentry => by
          rcases List.mem_append.1 hentry with hentry | hentry
          · exact hcome entry hentry
          · obtain rfl := List.mem_singleton.1 hentry
            exact ⟨ref, href, hobject, rfl⟩
        have hnew : a.identity ref ∈ (met ++ [(a.identity ref, object)]).map (·.1) := by simp
        have hclosed' : a.ClosedBut (object.parts ++ others)
            (met ++ [(a.identity ref, object)]) := fun entry hentry part hpart => by
          rcases List.mem_append.1 hentry with hentry | hentry
          · rcases hclosed entry hentry part hpart with hplace | hleft
            · exact .inl (by rw [List.map_append]; exact List.mem_append_left _ hplace)
            · rcases List.mem_cons.1 hleft with rfl | hleft
              · exact .inl hnew
              · exact .inr (List.mem_append_right _ hleft)
          · obtain rfl := List.mem_singleton.1 hentry
            exact .inr (List.mem_append_left _ hpart)
        obtain ⟨hbegins, hfrom, hmet, hresult⟩ := ih
          (List.forall_mem_append.2 ⟨hparts, hothers⟩) hcome' hclosed'
          (by rw [List.length_append]; omega)
        simp only [if_neg hany, hobject]
        exact ⟨(List.prefix_append _ _).trans hbegins, hfrom,
          List.forall_mem_cons.2 ⟨(hbegins.map _).subset hnew,
            fun other hother => hmet other (List.mem_append_right _ hother)⟩, hresult⟩

/-! ## The layout -/

/-- The layout begins with the top object, and is closed under parts. -/
theorem layout_spec (hP : ∀ ref, P ref → ∃ o, a.object? ref = some o ∧ ∀ part ∈ o.parts, P part)
    (htop : P a.top) :
    a.ComeFrom P a.layout ∧ a.ClosedBut [] a.layout ∧
      ∃ object others, a.layout = (a.identity a.top, object) :: others := by
  have hunmet : a.unmetParts [] = a.objects.flatMap (·.2.parts) := by
    unfold unmetParts
    rw [List.filter_eq_self.2 (by simp)]
  obtain ⟨object, hobject, hparts⟩ := hP a.top htop
  have hlayout : a.layout =
      a.laidOut (a.unmetParts []).length [(a.identity a.top, object)] object.parts := by
    rw [layout, foldl_parts, hunmet, Nat.add_comm, laidOut]
    simp [hobject]
  have hless := @length_unmetParts_append a [] a.top object hobject List.not_mem_nil
  obtain ⟨hbegins, hcome, -, hclosed⟩ := @laidOut_spec a [(a.identity a.top, object)] P hP
    (a.unmetParts []).length object.parts hparts
    (fun entry hentry => ⟨a.top, htop, by simpa [List.mem_singleton.1 hentry] using hobject,
      by rw [List.mem_singleton.1 hentry]⟩)
    (fun entry hentry part hpart => .inr (by rwa [List.mem_singleton.1 hentry] at hpart))
    (by simpa [Nat.add_comm] using hless)
  rw [← hlayout] at hbegins hcome hclosed
  obtain ⟨others, hothers⟩ := hbegins
  exact ⟨hcome, hclosed, object, others, hothers.symm⟩

end BundleHook.PropertyList.Archive
