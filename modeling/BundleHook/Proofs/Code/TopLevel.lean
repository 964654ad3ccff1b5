import Mathlib.Logic.Relation
import BundleHook.Proofs.Code.LiteralEnd
import BundleHook.Proofs.Code.Nesting

/-!
# Outside all delimiters

A reader that takes literals, comments and groups between delimiters as a whole comes to what stands
outside all delimiters.

* `stepOver` — one step of the reader;
* `Outside` — the places that it comes to.
-/

namespace BundleHook.Code

open Text

/-! ## Steps -/

/-- Where a reader goes on that takes literals, comments and groups as a whole: nowhere at the end
of the text and at a delimiter that is never closed. -/
def stepOver (t : Text) (i : Nat) : Option Nat :=
  match t.drop i with
  | [] => none
  | c :: rest =>
    match literalLength (c :: rest) with
    | length + 1 => some (i + (length + 1))
    | 0 => if (closerOf c).isSome then (matchingCloser t i).map (· + 1) else some (i + 1)

/-- The reader comes from `i` to `k`: nothing that is open at `i` is closed before `k`, and `k` is
in no literal, comment or group that begins behind `i`. -/
def Outside (t : Text) : (i k : Nat) → Prop := Relation.ReflTransGen fun i k => stepOver t i = some k

/-- A character that begins nothing that is taken as a whole. -/
def IsSimple (c : Char) : Prop := IsPlain c ∧ closerOf c = none

instance (c : Char) : Decidable (IsSimple c) := inferInstanceAs (Decidable (_ ∧ _))

theorem IsSimple.of_isBlank {c : Char} (h : isBlank c = true) : IsSimple c := by
  refine ⟨.of_isBlank h, ?_⟩
  unfold closerOf
  split
  all_goals first | (exact absurd h (by decide)) | rfl

section Steps

variable {t : Text} {i j k : Nat} {c : Char}

theorem bounds_of_stepOver (h : stepOver t i = some j) : i < j ∧ j ≤ t.length := by
  unfold stepOver at h
  split at h
  · cases h
  · next c rest hdrop =>
    have hlength := congrArg List.length hdrop
    rw [List.length_drop] at hlength
    split at h
    · next length hliteral =>
      have hle := literalLength_le (c :: rest)
      obtain rfl := Option.some.inj h
      omega
    · rw [List.length_cons] at hlength
      split at h
      · obtain ⟨close, hclose, rfl⟩ := Option.map_eq_some_iff.1 h
        obtain ⟨-, -, -, -, hle, -⟩ := matchingCloser_eq_some hclose
        have hlt := lt_length_of_matchingCloser hclose
        omega
      · obtain rfl := Option.some.inj h
        omega

theorem stepOver_of_isSimple (hc : t[i]? = some c) (h : IsSimple c) :
    stepOver t i = some (i + 1) := by
  obtain ⟨hlt, rfl⟩ := List.getElem?_eq_some_iff.1 hc
  obtain ⟨⟨hslash, hquote, hapostrophe⟩, hcloser⟩ := h
  rw [stepOver, List.drop_eq_getElem_cons hlt]
  simp only [literalLength_cons hslash hquote hapostrophe, hcloser, Option.isSome_none,
    Bool.false_eq_true, if_false]

namespace Outside

theorem le (h : Outside t i k) : i ≤ k := by
  induction h with
  | refl => exact Nat.le_refl i
  | tail _ hstep ih => exact Nat.le_trans ih (Nat.le_of_lt (bounds_of_stepOver hstep).1)

theorem trans (hij : Outside t i j) (hjk : Outside t j k) : Outside t i k :=
  Relation.ReflTransGen.trans hij hjk

/-- From a place that it has come to the reader comes to all later ones. -/
theorem of_le (hj : Outside t i j) (hk : Outside t i k) (hle : j ≤ k) : Outside t j k := by
  have hunique : Relator.RightUnique fun i k => stepOver t i = some k :=
    fun _ _ _ hleft hright => Option.some.inj (hleft.symm.trans hright)
  rcases Relation.ReflTransGen.total_of_right_unique hunique hj hk with hjk | hkj
  · exact hjk
  · obtain rfl := Nat.le_antisymm hle (le hkj)
    exact .refl

theorem of_isSimple (hle : i ≤ k) (hk : k ≤ t.length) (h : ∀ c ∈ slice t i k, IsSimple c) :
    Outside t i k := by
  obtain ⟨n, rfl⟩ := Nat.exists_eq_add_of_le hle
  induction n with
  | zero => exact .refl
  | succ n ih =>
      have hlt : i + n < t.length := Nat.lt_of_succ_le hk
      rw [← Nat.add_assoc, slice_succ (Nat.le_add_right i n) hlt, List.forall_mem_append,
        List.forall_mem_singleton] at h
      exact (ih (Nat.le_add_right i n) (Nat.le_of_lt hlt) h.1).tail
        (stepOver_of_isSimple (List.getElem?_eq_getElem hlt) h.2)

theorem skipBlanks (h : i ≤ t.length) : Outside t i (Code.skipBlanks t i) := by
  obtain ⟨hle, hlength⟩ := skipBlanks_le h
  refine of_isSimple hle hlength fun c hc => .of_isBlank ?_
  rw [slice_skipBlanks] at hc
  exact List.all_eq_true.1 List.all_takeWhile c hc

end Outside

end Steps

end BundleHook.Code
