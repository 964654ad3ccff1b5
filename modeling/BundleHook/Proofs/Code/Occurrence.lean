import BundleHook.Code.Matching

/-!
# Occurrences of a pattern

A pattern occurs in a text when it matches a stretch somewhere in it. Most patterns look at nothing
but the text they take, so that they match it whatever stands around: `Takes` says that of a pattern
and a text, and composes along the pattern. `Shows` is the same for a stretch inside a text.
-/

namespace BundleHook.Code.Pattern

open Text

/-- The place at the start of `here`, where `before` stands in front of it. -/
def placeBetween (before here : Text) : Place := ⟨before.length, before.getLast?, here⟩

/-- The pattern matches `t` whatever stands before and behind it. -/
def Takes (pattern : Pattern) (t : Text) : Prop :=
  ∀ before behind, Matches pattern (placeBetween before (t ++ behind))
    (placeBetween (before ++ t) behind)

/-- The pattern occurs in every text that holds `t`. -/
def Shows (pattern : Pattern) (t : Text) : Prop :=
  ∀ before behind, pattern.occursIn (before ++ t ++ behind) = true

theorem isSome_endAt_iff (pattern : Pattern) (p : Place) :
    (pattern.endAt p).isSome = true ↔ ∃ q, Matches pattern p q := by
  rw [endAt, isSome_run_iff]
  simp

theorem isSome_searchFrom_iff (pattern : Pattern) (before here : Text) :
    (pattern.searchFrom before.length before.getLast? here).isSome = true ↔
      ∃ s r, here = s ++ r ∧ ∃ q, Matches pattern (placeBetween (before ++ s) r) q := by
  induction here generalizing before with
  | nil =>
      rw [searchFrom, Option.isSome_map, isSome_endAt_iff]
      constructor
      · rintro ⟨q, h⟩
        exact ⟨[], [], rfl, q, by simpa [placeBetween] using h⟩
      · rintro ⟨s, r, hsplit, q, h⟩
        obtain ⟨rfl, rfl⟩ := List.append_eq_nil_iff.1 hsplit.symm
        exact ⟨q, by simpa [placeBetween] using h⟩
  | cons c rest ih =>
      have hnext : placeBetween (before ++ [c]) rest = ⟨before.length + 1, some c, rest⟩ := by
        simp [placeBetween]
      have ih' := ih (before ++ [c])
      simp only [List.length_append, List.length_singleton, List.getLast?_concat] at ih'
      rw [searchFrom]
      split
      · next stop hstop =>
        have hhere := (isSome_endAt_iff pattern ⟨before.length, before.getLast?, c :: rest⟩).1
          (by simp [hstop])
        obtain ⟨q, h⟩ := hhere
        simp only [Option.isSome_some, true_iff]
        exact ⟨[], c :: rest, rfl, q, by simpa [placeBetween] using h⟩
      · next hnone =>
        rw [ih']
        constructor
        · rintro ⟨s, r, rfl, q, h⟩
          exact ⟨c :: s, r, rfl, q, by simpa using h⟩
        · rintro ⟨s, r, hsplit, q, h⟩
          cases s with
          | nil =>
              obtain rfl : c :: rest = r := hsplit
              have hhere := (isSome_endAt_iff pattern ⟨before.length, before.getLast?, c :: rest⟩).2
                ⟨q, by simpa [placeBetween] using h⟩
              simp [hnone] at hhere
          | cons d s =>
              obtain ⟨rfl, rfl⟩ := List.cons.inj hsplit
              exact ⟨s, r, rfl, q, by simpa using h⟩

/-- A pattern occurs in a text exactly when it matches from some place of it on. -/
theorem occursIn_iff (pattern : Pattern) (t : Text) :
    pattern.occursIn t = true ↔
      ∃ before here, t = before ++ here ∧ ∃ q, Matches pattern (placeBetween before here) q := by
  simpa [occursIn, search] using isSome_searchFrom_iff pattern [] t

namespace Takes

theorem nothing : Takes Pattern.nothing [] := by
  intro before behind
  simpa [placeBetween] using Matches.nothing (placeBetween before behind)

theorem one {accepts : Char → Bool} {c : Char} (h : accepts c = true) :
    Takes (Pattern.one accepts) [c] := by
  intro before behind
  have := Matches.one (p := placeBetween before (c :: behind)) rfl h
  simpa [placeBetween, Place.step] using this

theorem both {first second : Pattern} {s t : Text} (hfirst : Takes first s)
    (hsecond : Takes second t) : Takes (first ++ second) (s ++ t) := by
  intro before behind
  have hleft := hfirst before (t ++ behind)
  have hright := hsecond (before ++ s) behind
  rw [List.append_assoc, ← List.append_assoc before]
  exact .both hleft hright

theorem first {left right : Pattern} {t : Text} (h : Takes left t) :
    Takes (Pattern.either left right) t :=
  fun before behind => .first (h before behind)

theorem second {left right : Pattern} {t : Text} (h : Takes right t) :
    Takes (Pattern.either left right) t :=
  fun before behind => .second (h before behind)

theorem some {pattern : Pattern} {t : Text} (h : Takes pattern t) : Takes (maybe pattern) t :=
  h.first

theorem none (pattern : Pattern) : Takes (maybe pattern) [] := nothing.second

theorem text (w : Text) : Takes (Pattern.text w) w := by
  induction w with
  | nil => exact nothing
  | cons c w ih =>
      have hc : Takes (.one (· == c)) [c] := one (by simp)
      exact hc.both ih

theorem word (w : String) : Takes (Pattern.word w) w.toList := text w.toList

theorem many {accepts : Char → Bool} {t : Text} (h : ∀ c ∈ t, accepts c = true) :
    Takes (Pattern.many accepts) t := by
  induction t with
  | nil =>
      intro before behind
      simpa [placeBetween] using Matches.manyStop accepts (placeBetween before behind)
  | cons c t ih =>
      intro before behind
      have htail := ih (fun d hd => h d (List.mem_cons_of_mem c hd)) (before ++ [c]) behind
      have hhead : (placeBetween before (c :: t ++ behind)).rest = c :: (t ++ behind) := rfl
      refine .manyMore hhead (h c List.mem_cons_self) ?_
      simpa [placeBetween, Place.step] using htail

theorem blanks {t : Text} (h : t.all isBlank = true) : Takes Pattern.blanks t :=
  many (List.all_eq_true.1 h)

theorem gap {c : Char} {t : Text} (hc : isBlank c = true) (h : t.all isBlank = true) :
    Takes Pattern.gap (c :: t) :=
  (one hc).both (blanks h)

theorem indentGap {c : Char} {t : Text} (hc : isIndent c = true) (h : t.all isIndent = true) :
    Takes Pattern.indentGap (c :: t) :=
  (one hc).both (many (List.all_eq_true.1 h))

/-- A gap takes every text without the first character of its stop. -/
theorem short {c : Char} {stop t : Text} (h : c ∉ t) : Takes (Pattern.short (c :: stop)) t := by
  induction t with
  | nil =>
      intro before behind
      simpa [placeBetween] using Matches.shortStop (c :: stop) (placeBetween before behind)
  | cons d t ih =>
      intro before behind
      have hne : c ≠ d := fun heq => h (heq ▸ List.mem_cons_self)
      have htail := ih (fun hd => h (List.mem_cons_of_mem d hd)) (before ++ [d]) behind
      have hhead : (placeBetween before (d :: t ++ behind)).rest = d :: (t ++ behind) := rfl
      refine .shortMore hhead ?_ ?_
      · simp [placeBetween, List.isPrefixOf, hne]
      · simpa [placeBetween, Place.step] using htail

/-- The edge of a word between two characters that one pattern ends and the next one begins with. -/
theorem edge {left right : Pattern} {s t : Text} {c d : Char} (hleft : Takes left (s ++ [c]))
    (hedge : isWord c ≠ isWord d) (hright : Takes right (d :: t)) :
    Takes (left ++ Pattern.edge ++ right) (s ++ [c] ++ d :: t) := by
  intro before behind
  have hfirst := hleft before (d :: t ++ behind)
  have hsecond := hright (before ++ (s ++ [c])) behind
  have hhere : (placeBetween (before ++ (s ++ [c])) (d :: t ++ behind)).isEdge = true := by
    simpa [placeBetween, Place.isEdge] using hedge
  rw [List.append_assoc _ (d :: t), ← List.append_assoc before]
  exact .both (.both hfirst (.edge hhere)) hsecond

end Takes

namespace Shows

theorem of_takes {pattern : Pattern} {t : Text} (h : Takes pattern t) : pattern.Shows t := by
  intro before behind
  rw [occursIn_iff]
  exact ⟨before, t ++ behind, by simp, _, h before behind⟩

theorem append_left {pattern : Pattern} {t : Text} (s : Text) (h : pattern.Shows t) :
    pattern.Shows (s ++ t) := by
  intro before behind
  simpa using h (before ++ s) behind

theorem append_right {pattern : Pattern} {t : Text} (h : pattern.Shows t) (s : Text) :
    pattern.Shows (t ++ s) := by
  intro before behind
  simpa using h before (s ++ behind)

end Shows

end BundleHook.Code.Pattern
