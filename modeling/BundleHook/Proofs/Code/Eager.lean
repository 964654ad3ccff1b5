import BundleHook.Code.Extent
import BundleHook.Proofs.Code.Stretches

/-!
# What an eager end leaves

A pattern that ends with a repetition takes all that the repetition accepts, so that what a search
finds is followed by a character that it does not accept, or by nothing.

* `Pattern.getElem?_of_searchAfter_many`: what follows the stretch that a search has found;
* `getElem?_skipBlanks`: what follows a run of blanks.
-/

namespace BundleHook.Code

open Text

/-- Behind all characters of a class that a text begins with stands another one. -/
theorem not_accepted_behind_takeWhile {accepts : Char → Bool} {t : Text} {c : Char}
    (h : t[(t.takeWhile accepts).length]? = some c) : accepts c = false := by
  have hdrop : t.drop (t.takeWhile accepts).length = t.dropWhile accepts := by
    have hparts := congrArg (List.drop (t.takeWhile accepts).length)
      (List.takeWhile_append_dropWhile (p := accepts) (l := t))
    rwa [List.drop_left, eq_comm] at hparts
  rw [← List.head?_drop, hdrop] at h
  have hhead := List.head?_dropWhile_not accepts t
  rw [h] at hhead
  exact hhead

/-- No blank follows a run of blanks. -/
theorem getElem?_skipBlanks {t : Text} {index : Nat} {c : Char}
    (h : t[skipBlanks t index]? = some c) : isBlank c = false := by
  rw [skipBlanks, ← List.getElem?_drop] at h
  exact not_accepted_behind_takeWhile h

namespace Pattern

theorem runMany_index (accepts : Char → Bool) (t : Text) (index : Nat) (before : Option Char) :
    runMany accepts (fun q => some q.index) index before t =
      some (index + (t.takeWhile accepts).length) := by
  induction t generalizing index before with
  | nil => rfl
  | cons c rest ih =>
      rw [runMany]
      cases hc : accepts c with
      | true =>
          rw [if_pos rfl, ih, List.takeWhile_cons_of_pos hc, List.length_cons]
          exact congrArg some (by omega)
      | false =>
          rw [if_neg Bool.false_ne_true, List.takeWhile_cons_of_neg (by rw [hc]; decide)]
          rfl

variable {first : Pattern} {accepts : Char → Bool}

theorem getElem?_of_endAt_many {before here : Text} {stop : Nat} {c : Char}
    (h : (first ++ many accepts).endAt (placeBetween before here) = some stop)
    (hc : (before ++ here)[stop]? = some c) : accepts c = false := by
  obtain ⟨q, hfirst, hmany⟩ := @exists_matches_of_run _ first _ _ _ h
  obtain ⟨taken, rest, rfl, rfl⟩ := hfirst.exists_taken
  have hstop : (before ++ taken).length + (rest.takeWhile accepts).length = stop :=
    Option.some.inj ((runMany_index accepts rest _ _).symm.trans hmany)
  rw [← hstop, ← List.append_assoc, List.getElem?_append_right (Nat.le_add_right _ _),
    Nat.add_sub_cancel_left] at hc
  exact not_accepted_behind_takeWhile hc

theorem endAt_of_searchFrom {pattern : Pattern} {before here : Text} {span : Span}
    (h : pattern.searchFrom before.length before.getLast? here = some span) :
    ∃ front behind, here = front ++ behind ∧
      pattern.endAt (placeBetween (before ++ front) behind) = some span.stop := by
  induction here generalizing before with
  | nil =>
      rw [searchFrom, Option.map_eq_some_iff] at h
      obtain ⟨stop, hstop, rfl⟩ := h
      exact ⟨[], [], rfl, by rwa [List.append_nil]⟩
  | cons c rest ih =>
      rw [searchFrom] at h
      split at h
      · next stop hstop =>
        obtain rfl := Option.some.inj h
        exact ⟨[], c :: rest, rfl, by rwa [List.append_nil]⟩
      · obtain ⟨front, behind, rfl, hend⟩ := @ih (before ++ [c]) (by simpa using h)
        exact ⟨c :: front, behind, rfl, by simpa using hend⟩

/-- What a search finds for a pattern that ends with a repetition is followed by no character that
the repetition accepts. -/
theorem getElem?_of_searchAfter_many {t : Text} {start : Nat} {span : Span} {c : Char}
    (hstart : start ≤ t.length)
    (h : (first ++ many accepts).searchAfter t start = some span) (hc : t[span.stop]? = some c) :
    accepts c = false := by
  have hlength : (t.take start).length = start := List.length_take_of_le hstart
  obtain ⟨front, behind, hsplit, hend⟩ :=
    @endAt_of_searchFrom (first ++ many accepts) (t.take start) (t.drop start) span
      (by rw [hlength]; exact h)
  refine getElem?_of_endAt_many hend ?_
  rw [List.append_assoc, ← hsplit, List.take_append_drop, hc]

end Pattern

end BundleHook.Code
