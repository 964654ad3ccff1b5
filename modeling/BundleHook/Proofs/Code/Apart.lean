import BundleHook.Proofs.Code.Stretches

/-!
# Stretches that lie apart

Where no two matches of a pattern overlap, walking through a text finds all of them, and the last
one found is the last one there is.

* `Pattern.LiesApart`: no two matches in the text overlap;
* `mem_stretches`: every match is found;
* `stop_le_of_getLast?_stretches`: the last one found ends behind all others.
-/

namespace BundleHook.Code.Pattern

/-- Every match in the text takes some of it, and matches that overlap are one match. -/
structure LiesApart (pattern : Pattern) (t : Text) : Prop where
  takes : ∀ span, pattern.MatchesAt t span → span.start < span.stop
  apart : ∀ span other, pattern.MatchesAt t span → pattern.MatchesAt t other →
    span.start < other.stop → other.start < span.stop → span = other

variable {pattern : Pattern} {t : Text}

/-! ## The order of stretches -/

theorem le_start_of_mem_stretchesFrom {here : Text} {index skip : Nat} {before : Option Char}
    {span : Span} (h : span ∈ pattern.stretchesFrom index skip before here) :
    index ≤ span.start := by
  induction here generalizing index skip before with
  | nil => cases skip <;> cases h
  | cons c rest ih =>
      have hnext {skip : Nat} (h : span ∈ pattern.stretchesFrom (index + 1) skip (some c) rest) :
          index ≤ span.start := Nat.le_of_succ_le (ih h)
      cases skip with
      | succ skip => exact hnext h
      | zero =>
          rw [stretchesFrom] at h
          split at h
          · rcases List.mem_cons.1 h with rfl | h
            · exact Nat.le_refl _
            · exact hnext h
          · exact hnext h

theorem stretchesFrom_sorted (pattern : Pattern) (here : Text) (index skip : Nat)
    (before : Option Char) :
    (pattern.stretchesFrom index skip before here).Pairwise (·.start < ·.start) := by
  induction here generalizing index skip before with
  | nil => cases skip <;> exact .nil
  | cons c rest ih =>
      cases skip with
      | succ skip => exact ih (index + 1) skip (some c)
      | zero =>
          rw [stretchesFrom]
          split
          · exact .cons (fun _ hspan => le_start_of_mem_stretchesFrom hspan) (ih _ _ _)
          · exact ih _ _ _

/-! ## All matches -/

theorem mem_stretchesFrom {before here : Text} {skip : Nat} {span : Span}
    (happart : pattern.LiesApart (before ++ here)) (h : pattern.MatchesAt (before ++ here) span)
    (hstart : before.length + skip ≤ span.start) :
    span ∈ pattern.stretchesFrom before.length skip before.getLast? here := by
  induction here generalizing before skip with
  | nil =>
      have hstop := h.2.1
      have htakes := happart.takes span h
      simp only [List.append_nil] at hstop
      omega
  | cons c rest ih =>
      have hnext {skip : Nat} (hstart : before.length + 1 + skip ≤ span.start) :
          span ∈ pattern.stretchesFrom (before.length + 1) skip (some c) rest := by
        simpa using @ih (before ++ [c]) skip (by simpa using happart) (by simpa using h)
          (by simpa using hstart)
      cases skip with
      | succ skip =>
          rw [stretchesFrom]
          exact hnext (by omega)
      | zero =>
          rw [stretchesFrom]
          split
          · next stop hstop =>
            have hfound : pattern.MatchesAt (before ++ c :: rest) ⟨before.length, stop⟩ :=
              matchesAt_of_endAt hstop
            have hpos := happart.takes _ hfound
            simp only at hpos
            by_cases hbehind : stop ≤ span.start
            · exact List.mem_cons_of_mem _ (hnext (by omega))
            · have htakes := happart.takes span h
              obtain rfl := happart.apart span _ h hfound (Nat.lt_of_not_le hbehind)
                (Nat.lt_of_le_of_lt hstart htakes)
              exact List.mem_cons_self
          · next hnone =>
            refine hnext (Nat.succ_le_of_lt (Nat.lt_of_le_of_ne hstart fun heq => ?_))
            -- A match that starts here would have been found.
            have hmatches := h.2.2
            rw [← heq, List.take_left, List.drop_left] at hmatches
            have hsome := (isSome_endAt_iff pattern ⟨before.length, before.getLast?, c :: rest⟩).2
              ⟨_, hmatches⟩
            rw [hnone] at hsome
            cases hsome

theorem mem_stretches (happart : pattern.LiesApart t) {span : Span}
    (h : pattern.MatchesAt t span) : span ∈ pattern.stretches t :=
  @mem_stretchesFrom pattern [] t 0 span happart h (Nat.zero_le _)

/-- The last stretch ends behind every match. -/
theorem stop_le_of_getLast?_stretches (happart : pattern.LiesApart t) {last : Span}
    (hlast : (pattern.stretches t).getLast? = some last) {span : Span}
    (h : pattern.MatchesAt t span) : span.stop ≤ last.stop := by
  obtain ⟨front, hfront⟩ := List.getLast?_eq_some_iff.1 hlast
  have hmatches := matchesAt_of_mem_stretches (List.mem_of_getLast? hlast)
  have hsorted := stretchesFrom_sorted pattern t 0 0 none
  have hmem := mem_stretches happart h
  rw [stretches] at hfront hmem
  rw [hfront] at hsorted hmem
  rcases List.mem_append.1 hmem with hearlier | hsame
  · have hbefore : span.start < last.start :=
      (List.pairwise_append.1 hsorted).2.2 span hearlier last (List.mem_singleton.2 rfl)
    refine Decidable.byContradiction fun hbehind => ?_
    have hlong := happart.takes last hmatches
    obtain rfl := happart.apart span last h hmatches (by omega) (by omega)
    exact Nat.lt_irrefl _ hbefore
  · exact Nat.le_of_eq (congrArg _ (List.mem_singleton.1 hsame))

end BundleHook.Code.Pattern
