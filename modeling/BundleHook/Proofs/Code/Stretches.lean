import BundleHook.Code.Declaration
import BundleHook.Proofs.Code.Occurrence
import BundleHook.Proofs.Text.Parts

/-!
# Stretches that are found

What a search finds has the shape of its pattern and lies in the text, and what a declaration ends
with is known from its body: behind a brace, at the end of a line or of the text, or before a
comment.
-/

namespace BundleHook.Code

open Text

namespace Pattern

variable {α : Type}

/-! ## Runs -/

theorem exists_matches_of_runMany {accepts : Char → Bool} {next : Place → Option α} {t : Text}
    {index : Nat} {before : Option Char} {r : α}
    (h : runMany accepts next index before t = some r) :
    ∃ q, Matches (many accepts) ⟨index, before, t⟩ q ∧ next q = some r := by
  induction t generalizing index before with
  | nil => exact ⟨_, .manyStop _ _, h⟩
  | cons c rest ih =>
      rw [runMany] at h
      split at h
      · next accepted =>
        split at h
        · next found hfound =>
          obtain ⟨q, hq, hnext⟩ := ih (hfound.trans h)
          exact ⟨q, .manyMore rfl accepted hq, hnext⟩
        · exact ⟨_, .manyStop _ _, h⟩
      · exact ⟨_, .manyStop _ _, h⟩

theorem exists_matches_of_runShort {stop : Text} {next : Place → Option α} {t : Text}
    {index : Nat} {before : Option Char} {r : α}
    (h : runShort stop next index before t = some r) :
    ∃ q, Matches (short stop) ⟨index, before, t⟩ q ∧ next q = some r := by
  induction t generalizing index before with
  | nil => exact ⟨_, .shortStop _ _, h⟩
  | cons c rest ih =>
      rw [runShort] at h
      split at h
      · next found hfound => exact ⟨_, .shortStop _ _, hfound.trans h⟩
      · split at h
        · cases h
        · next outside =>
          obtain ⟨q, hq, hnext⟩ := ih h
          exact ⟨q, .shortMore rfl (Bool.eq_false_iff.2 outside) hq, hnext⟩

theorem exists_matches_of_runTurns {body : Pattern} {next : Place → Option α}
    (hbody : ∀ (after : Place → Option α) (p : Place) (r : α), body.run after p = some r →
      ∃ q, Matches body p q ∧ after q = some r)
    {budget : Text} {p : Place} {r : α} (h : runTurns body.run next budget p = some r) :
    ∃ q, Matches (turns body) p q ∧ next q = some r := by
  induction budget generalizing p with
  | nil => exact ⟨_, .turnsStop _ _, h⟩
  | cons c budget ih =>
      rw [runTurns] at h
      split at h
      · next found hfound =>
        obtain ⟨q, turn, hafter⟩ := hbody _ _ _ (hfound.trans h)
        split at hafter
        · next progress =>
          obtain ⟨q', tail, hnext⟩ := ih hafter
          exact ⟨q', .turnsMore turn progress tail, hnext⟩
        · cases hafter
      · exact ⟨_, .turnsStop _ _, h⟩

/-- What a run answers is the answer at the end of a stretch of the pattern. -/
theorem exists_matches_of_run {pattern : Pattern} {next : Place → Option α} {p : Place} {r : α}
    (h : pattern.run next p = some r) : ∃ q, Matches pattern p q ∧ next q = some r := by
  induction pattern generalizing next p r with
  | nothing => exact ⟨p, .nothing p, h⟩
  | one accepts =>
      simp only [run] at h
      split at h
      · next c rest head =>
        split at h
        · next accepted => exact ⟨_, .one head accepted, h⟩
        · cases h
      · cases h
  | many accepts => exact exists_matches_of_runMany h
  | edge =>
      simp only [run] at h
      split at h
      · next here => exact ⟨p, .edge here, h⟩
      · cases h
  | lineStart =>
      simp only [run] at h
      split at h
      · next here => exact ⟨p, .lineStart here, h⟩
      · cases h
  | lineEnd =>
      simp only [run] at h
      split at h
      · next here => exact ⟨p, .lineEnd here, h⟩
      · cases h
  | short stop => exact exists_matches_of_runShort h
  | both first second left right =>
      obtain ⟨q, hq, hnext⟩ := left h
      obtain ⟨q', hq', hnext'⟩ := right hnext
      exact ⟨q', .both hq hq', hnext'⟩
  | either first second left right =>
      simp only [run] at h
      split at h
      · next found hfound =>
        obtain ⟨q, hq, hnext⟩ := left (hfound.trans h)
        exact ⟨q, .first hq, hnext⟩
      · obtain ⟨q, hq, hnext⟩ := right h
        exact ⟨q, .second hq, hnext⟩
  | turns body ih => exact exists_matches_of_runTurns (fun _ _ _ => ih) h

/-- A stretch takes some of the text in front of it. -/
theorem Matches.exists_taken {pattern : Pattern} {before here : Text} {q : Place}
    (h : Matches pattern (placeBetween before here) q) :
    ∃ taken rest, here = taken ++ rest ∧ q = placeBetween (before ++ taken) rest := by
  generalize hp : placeBetween before here = p at h
  induction h generalizing before here with
  | nothing | manyStop | edge | lineStart | lineEnd | shortStop | turnsStop =>
      exact ⟨[], here, rfl, by simp [← hp]⟩
  | one head =>
      subst hp
      obtain rfl : here = _ :: _ := head
      exact ⟨[_], _, rfl, by simp [placeBetween, Place.step]⟩
  | @manyMore _ _ _ c rest head _ _ ih | @shortMore _ _ _ c rest head _ _ ih =>
      subst hp
      obtain rfl : here = c :: rest := head
      obtain ⟨taken, rest', rfl, rfl⟩ := @ih (before ++ [c]) rest (by
        simp [placeBetween, Place.step])
      exact ⟨c :: taken, rest', rfl, by simp⟩
  | both _ _ left right | turnsMore _ _ _ left right =>
      obtain ⟨taken, rest, rfl, hq⟩ := left hp
      obtain ⟨taken', rest', rfl, hr⟩ := right hq.symm
      exact ⟨taken ++ taken', rest', by simp, by simp [hr]⟩
  | first _ ih | second _ ih => exact ih hp

/-! ## Stretches by the form of the pattern -/

section Forms

variable {before here : Text} {q : Place}

theorem matches_both_iff {first second : Pattern} {p : Place} :
    Matches (first ++ second) p q ↔ ∃ r, Matches first p r ∧ Matches second r q := by
  constructor
  · intro h
    cases h with
    | both left right => exact ⟨_, left, right⟩
  · rintro ⟨r, left, right⟩
    exact .both left right

theorem matches_maybe_iff {pattern : Pattern} {p : Place} :
    Matches (maybe pattern) p q ↔ Matches pattern p q ∨ q = p := by
  constructor
  · intro h
    cases h with
    | first left => exact .inl left
    | second right => cases right; exact .inr rfl
  · rintro (h | rfl)
    · exact .first h
    · exact .second (.nothing _)

theorem matches_many_iff {accepts : Char → Bool} :
    Matches (many accepts) (placeBetween before here) q ↔
      ∃ taken rest, here = taken ++ rest ∧ (∀ c ∈ taken, accepts c = true) ∧
        q = placeBetween (before ++ taken) rest := by
  constructor
  · intro h
    generalize hpattern : many accepts = pattern at h
    generalize hp : placeBetween before here = p at h
    induction h generalizing before here with
    | manyStop => exact ⟨[], here, rfl, List.forall_mem_nil _, by simp [← hp]⟩
    | @manyMore _ _ _ c rest head accepted _ ih =>
        cases hpattern
        subst hp
        obtain rfl : here = c :: rest := head
        obtain ⟨taken, rest', rfl, htaken, rfl⟩ := @ih (before ++ [c]) rest rfl (by
          simp [placeBetween, Place.step])
        exact ⟨c :: taken, rest', rfl, List.forall_mem_cons.2 ⟨accepted, htaken⟩, by simp⟩
    | _ => cases hpattern
  · rintro ⟨taken, rest, rfl, htaken, rfl⟩
    exact Takes.many htaken before rest

theorem matches_text_iff {w : Text} :
    Matches (text w) (placeBetween before here) q ↔
      ∃ rest, here = w ++ rest ∧ q = placeBetween (before ++ w) rest := by
  constructor
  · intro h
    induction w generalizing before here with
    | nil =>
        cases h
        exact ⟨here, rfl, by simp⟩
    | cons c w ih =>
        obtain ⟨r, hone, hmore⟩ := matches_both_iff.1 h
        cases hone with
        | @one _ _ d rest head accepted =>
            obtain rfl : d = c := beq_iff_eq.1 accepted
            obtain rfl : here = d :: rest := head
            have hnext : (placeBetween before (d :: rest)).step d rest =
                placeBetween (before ++ [d]) rest := by
              simp [placeBetween, Place.step]
            rw [hnext] at hmore
            obtain ⟨rest', rfl, rfl⟩ := ih hmore
            exact ⟨rest', rfl, by simp⟩
  · rintro ⟨rest, rfl, rfl⟩
    exact Takes.text w before rest

end Forms

/-! ## Searches -/

/-- The pattern matches the part of a text between two offsets. -/
def MatchesAt (pattern : Pattern) (t : Text) (span : Span) : Prop :=
  span.start ≤ span.stop ∧ span.stop ≤ t.length ∧
    Matches pattern (placeBetween (t.take span.start) (t.drop span.start))
      (placeBetween (t.take span.stop) (t.drop span.stop))

theorem matchesAt_both {first second : Pattern} {t : Text} {span : Span}
    (h : (first ++ second).MatchesAt t span) :
    ∃ middle, first.MatchesAt t ⟨span.start, middle⟩ ∧ second.MatchesAt t ⟨middle, span.stop⟩ := by
  obtain ⟨hle, hlength, hmatches⟩ := h
  obtain ⟨r, hfirst, hsecond⟩ := matches_both_iff.1 hmatches
  obtain ⟨taken, rest, hsplit, rfl⟩ := hfirst.exists_taken
  have ht : t.take span.start ++ taken ++ rest = t := by
    rw [List.append_assoc, ← hsplit, List.take_append_drop]
  have htake := congrArg (List.take (t.take span.start ++ taken).length) ht
  have hdrop := congrArg (List.drop (t.take span.start ++ taken).length) ht
  rw [List.take_left] at htake
  rw [List.drop_left] at hdrop
  have hstart : (t.take span.start).length = span.start :=
    List.length_take_of_le (Nat.le_trans hle hlength)
  have hindex := hsecond.index_le.1
  have hstop : (t.take span.stop).length = span.stop := List.length_take_of_le hlength
  simp only [placeBetween, hstop] at hindex
  refine ⟨_, ⟨?_, ?_, ?_⟩, hindex, hlength, ?_⟩
  · simp only [List.length_append, hstart]
    omega
  · exact Nat.le_trans hindex hlength
  · simp only [← htake, ← hdrop]
    exact hfirst
  · simp only [← htake, ← hdrop]
    exact hsecond

theorem matchesAt_one {accepts : Char → Bool} {t : Text} {span : Span}
    (h : (one accepts).MatchesAt t span) :
    ∃ c, accepts c = true ∧ slice t span.start span.stop = [c] := by
  obtain ⟨hle, hlength, hmatches⟩ := h
  have hslice := slice_append_drop (t := t) hle
  generalize hp : placeBetween (t.take span.start) (t.drop span.start) = p at hmatches
  generalize hq : placeBetween (t.take span.stop) (t.drop span.stop) = q at hmatches
  cases hmatches with
  | @one _ _ c rest head accepted =>
      subst hp
      have hrest : t.drop span.stop = rest := congrArg Place.rest hq
      have hhead : t.drop span.start = c :: rest := head
      rw [hhead, hrest, ← List.singleton_append] at hslice
      exact ⟨c, accepted, List.append_cancel_right hslice⟩

theorem matchesAt_many {accepts : Char → Bool} {t : Text} {span : Span}
    (h : (many accepts).MatchesAt t span) :
    ∀ c ∈ slice t span.start span.stop, accepts c = true := by
  obtain ⟨hle, hlength, hmatches⟩ := h
  obtain ⟨taken, rest, hsplit, htaken, hplace⟩ := matches_many_iff.1 hmatches
  have hrest : t.drop span.stop = rest := congrArg Place.rest hplace
  have hslice := slice_append_drop (t := t) hle
  rw [hsplit, hrest] at hslice
  exact List.append_cancel_right hslice ▸ htaken

theorem matchesAt_of_endAt {pattern : Pattern} {before here : Text} {stop : Nat}
    (h : pattern.endAt (placeBetween before here) = some stop) :
    pattern.MatchesAt (before ++ here) ⟨before.length, stop⟩ := by
  obtain ⟨q, hq, hstop⟩ := exists_matches_of_run h
  obtain ⟨taken, rest, rfl, rfl⟩ := hq.exists_taken
  obtain rfl : (before ++ taken).length = stop := Option.some.inj hstop
  refine ⟨by simp, by simp, ?_⟩
  simp only [List.take_left, List.drop_left]
  rwa [← List.append_assoc, List.take_left, List.drop_left]

theorem matchesAt_of_searchFrom {pattern : Pattern} {before here : Text} {span : Span}
    (h : pattern.searchFrom before.length before.getLast? here = some span) :
    pattern.MatchesAt (before ++ here) span ∧ before.length ≤ span.start := by
  induction here generalizing before with
  | nil =>
      rw [searchFrom, Option.map_eq_some_iff] at h
      obtain ⟨stop, hstop, rfl⟩ := h
      exact ⟨matchesAt_of_endAt hstop, Nat.le_refl _⟩
  | cons c rest ih =>
      rw [searchFrom] at h
      split at h
      · next stop hstop =>
        obtain rfl := Option.some.inj h
        exact ⟨matchesAt_of_endAt hstop, Nat.le_refl _⟩
      · have hlater := @ih (before ++ [c]) (by simpa using h)
        simp only [List.append_assoc, List.singleton_append, List.length_append,
          List.length_singleton] at hlater
        exact ⟨hlater.1, by omega⟩

theorem matchesAt_of_search {pattern : Pattern} {t : Text} {span : Span}
    (h : pattern.search t = some span) : pattern.MatchesAt t span :=
  (@matchesAt_of_searchFrom pattern [] t span h).1

theorem matchesAt_of_searchAfter {pattern : Pattern} {t : Text} {start : Nat} {span : Span}
    (hstart : start ≤ t.length) (h : pattern.searchAfter t start = some span) :
    pattern.MatchesAt t span ∧ start ≤ span.start := by
  have hlength : (t.take start).length = start := List.length_take_of_le hstart
  have hfound := @matchesAt_of_searchFrom pattern (t.take start) (t.drop start) span
    (by rw [hlength]; exact h)
  rwa [List.take_append_drop, hlength] at hfound

theorem matchesAt_of_mem_stretchesFrom {pattern : Pattern} {before here : Text} {skip : Nat}
    {span : Span} (h : span ∈ pattern.stretchesFrom before.length skip before.getLast? here) :
    pattern.MatchesAt (before ++ here) span := by
  induction here generalizing before skip with
  | nil => cases skip <;> cases h
  | cons c rest ih =>
      have hnext {skip : Nat} (h : span ∈ pattern.stretchesFrom (before.length + 1) skip (some c)
          rest) : pattern.MatchesAt (before ++ c :: rest) span := by
        simpa using @ih (before ++ [c]) skip (by simpa using h)
      cases skip with
      | succ skip => exact hnext h
      | zero =>
          rw [stretchesFrom] at h
          split at h
          · next stop hstop =>
            rcases List.mem_cons.1 h with rfl | h
            · exact matchesAt_of_endAt hstop
            · exact hnext h
          · exact hnext h

theorem matchesAt_of_mem_stretches {pattern : Pattern} {t : Text} {span : Span}
    (h : span ∈ pattern.stretches t) : pattern.MatchesAt t span :=
  @matchesAt_of_mem_stretchesFrom pattern [] t 0 span h

end Pattern

end BundleHook.Code
