import BundleHook.Code.Pattern

/-!
# What a pattern matches

`Pattern.Matches` says which stretches of text have the shape of a pattern, whatever their order of
preference.

Main statement: `isSome_run_iff`, a run succeeds exactly when some matching stretch is accepted by
what follows it.
-/

namespace BundleHook.Code.Pattern

/-- The stretch between two places has the shape of the pattern. -/
inductive Matches : Pattern → Place → Place → Prop where
  | nothing (p : Place) : Matches nothing p p
  | one {accepts : Char → Bool} {p : Place} {c : Char} {rest : Text} (head : p.rest = c :: rest)
      (accepted : accepts c = true) : Matches (one accepts) p (p.step c rest)
  | manyStop (accepts : Char → Bool) (p : Place) : Matches (many accepts) p p
  | manyMore {accepts : Char → Bool} {p q : Place} {c : Char} {rest : Text}
      (head : p.rest = c :: rest) (accepted : accepts c = true)
      (tail : Matches (many accepts) (p.step c rest) q) : Matches (many accepts) p q
  | edge {p : Place} (here : p.isEdge = true) : Matches edge p p
  | lineStart {p : Place} (here : p.isLineStart = true) : Matches lineStart p p
  | lineEnd {p : Place} (here : p.isLineEnd = true) : Matches lineEnd p p
  | shortStop (stop : Text) (p : Place) : Matches (short stop) p p
  | shortMore {stop : Text} {p q : Place} {c : Char} {rest : Text} (head : p.rest = c :: rest)
      (outside : stop.isPrefixOf p.rest = false) (tail : Matches (short stop) (p.step c rest) q) :
      Matches (short stop) p q
  | both {first second : Pattern} {p q r : Place} (left : Matches first p q)
      (right : Matches second q r) : Matches (both first second) p r
  | first {first second : Pattern} {p q : Place} (left : Matches first p q) :
      Matches (either first second) p q
  | second {first second : Pattern} {p q : Place} (right : Matches second p q) :
      Matches (either first second) p q
  | turnsStop (body : Pattern) (p : Place) : Matches (turns body) p p
  | turnsMore {body : Pattern} {p q r : Place} (turn : Matches body p q)
      (progress : p.index < q.index) (tail : Matches (turns body) q r) :
      Matches (turns body) p r

namespace Matches

/-- A stretch leads forward, and takes as many characters as it goes on. -/
theorem index_le {pattern : Pattern} {p q : Place} (h : Matches pattern p q) :
    p.index ≤ q.index ∧ p.index + p.rest.length = q.index + q.rest.length := by
  induction h with
  | nothing | manyStop | edge | lineStart | lineEnd | shortStop | turnsStop =>
    exact ⟨Nat.le_refl _, rfl⟩
  | one head => simp only [Place.step, head, List.length_cons]; omega
  | manyMore head _ _ ih | shortMore head _ _ ih =>
    simp only [Place.step] at ih
    simp only [head, List.length_cons]
    omega
  | both _ _ left right => omega
  | first _ ih | second _ ih => exact ih
  | turnsMore _ _ _ turn tail => omega

theorem many_iff {accepts : Char → Bool} {p q : Place} :
    Matches (many accepts) p q ↔
      q = p ∨ ∃ c rest, p.rest = c :: rest ∧ accepts c = true ∧
        Matches (many accepts) (p.step c rest) q := by
  constructor
  · intro h
    cases h with
    | manyStop => exact .inl rfl
    | manyMore head accepted tail => exact .inr ⟨_, _, head, accepted, tail⟩
  · rintro (rfl | ⟨c, rest, head, accepted, tail⟩)
    · exact .manyStop accepts _
    · exact .manyMore head accepted tail

theorem short_iff {stop : Text} {p q : Place} :
    Matches (short stop) p q ↔
      q = p ∨ ∃ c rest, p.rest = c :: rest ∧ stop.isPrefixOf p.rest = false ∧
        Matches (short stop) (p.step c rest) q := by
  constructor
  · intro h
    cases h with
    | shortStop => exact .inl rfl
    | shortMore head outside tail => exact .inr ⟨_, _, head, outside, tail⟩
  · rintro (rfl | ⟨c, rest, head, outside, tail⟩)
    · exact .shortStop stop _
    · exact .shortMore head outside tail

theorem turns_iff {body : Pattern} {p r : Place} :
    Matches (turns body) p r ↔
      r = p ∨ ∃ q, Matches body p q ∧ p.index < q.index ∧ Matches (turns body) q r := by
  constructor
  · intro h
    cases h with
    | turnsStop => exact .inl rfl
    | turnsMore turn progress tail => exact .inr ⟨_, turn, progress, tail⟩
  · rintro (rfl | ⟨q, turn, progress, tail⟩)
    · exact .turnsStop body _
    · exact .turnsMore turn progress tail

end Matches

variable {α : Type}

theorem isSome_runMany_iff (accepts : Char → Bool) (next : Place → Option α) (t : Text)
    (index : Nat) (before : Option Char) :
    (runMany accepts next index before t).isSome = true ↔
      ∃ q, Matches (many accepts) ⟨index, before, t⟩ q ∧ (next q).isSome = true := by
  induction t generalizing index before with
  | nil =>
    simp only [runMany]
    constructor
    · exact fun h => ⟨_, .manyStop _ _, h⟩
    · rintro ⟨q, h, hq⟩
      rcases Matches.many_iff.1 h with rfl | ⟨c, rest, head, -, -⟩
      · exact hq
      · cases head
  | cons c rest ih =>
    have step : (∃ q, Matches (many accepts) ⟨index, before, c :: rest⟩ q ∧
          (next q).isSome = true) ↔
        (next ⟨index, before, c :: rest⟩).isSome = true ∨
          (accepts c = true ∧ (runMany accepts next (index + 1) (some c) rest).isSome = true) := by
      rw [ih]
      constructor
      · rintro ⟨q, h, hq⟩
        rcases Matches.many_iff.1 h with rfl | ⟨d, others, head, accepted, tail⟩
        · exact .inl hq
        · obtain ⟨rfl, rfl⟩ := List.cons.inj head
          exact .inr ⟨accepted, q, tail, hq⟩
      · rintro (h | ⟨accepted, q, tail, hq⟩)
        · exact ⟨_, .manyStop _ _, h⟩
        · exact ⟨q, .manyMore rfl accepted tail, hq⟩
    rw [step, runMany]
    cases accepts c with
    | false => simp
    | true => cases runMany accepts next (index + 1) (some c) rest <;> simp

theorem isSome_runShort_iff (stop : Text) (next : Place → Option α) (t : Text) (index : Nat)
    (before : Option Char) :
    (runShort stop next index before t).isSome = true ↔
      ∃ q, Matches (short stop) ⟨index, before, t⟩ q ∧ (next q).isSome = true := by
  induction t generalizing index before with
  | nil =>
    simp only [runShort]
    constructor
    · exact fun h => ⟨_, .shortStop _ _, h⟩
    · rintro ⟨q, h, hq⟩
      rcases Matches.short_iff.1 h with rfl | ⟨c, rest, head, -, -⟩
      · exact hq
      · cases head
  | cons c rest ih =>
    have step : (∃ q, Matches (short stop) ⟨index, before, c :: rest⟩ q ∧
          (next q).isSome = true) ↔
        (next ⟨index, before, c :: rest⟩).isSome = true ∨
          (stop.isPrefixOf (c :: rest) = false ∧
            (runShort stop next (index + 1) (some c) rest).isSome = true) := by
      rw [ih]
      constructor
      · rintro ⟨q, h, hq⟩
        rcases Matches.short_iff.1 h with rfl | ⟨d, others, head, outside, tail⟩
        · exact .inl hq
        · obtain ⟨rfl, rfl⟩ := List.cons.inj head
          exact .inr ⟨outside, q, tail, hq⟩
      · rintro (h | ⟨outside, q, tail, hq⟩)
        · exact ⟨_, .shortStop _ _, h⟩
        · exact ⟨q, .shortMore rfl outside tail, hq⟩
    rw [step, runShort]
    cases next ⟨index, before, c :: rest⟩ with
    | some found => simp
    | none => cases stop.isPrefixOf (c :: rest) <;> simp

theorem isSome_runTurns_iff (body : Pattern) (next : Place → Option α)
    (hbody : ∀ (after : Place → Option α) (p : Place),
      (body.run after p).isSome = true ↔ ∃ q, Matches body p q ∧ (after q).isSome = true)
    (budget : Text) (p : Place) (enough : p.rest.length ≤ budget.length) :
    (runTurns body.run next budget p).isSome = true ↔
      ∃ q, Matches (turns body) p q ∧ (next q).isSome = true := by
  induction budget generalizing p with
  | nil =>
    simp only [runTurns]
    constructor
    · exact fun h => ⟨_, .turnsStop _ _, h⟩
    · rintro ⟨r, h, hr⟩
      rcases Matches.turns_iff.1 h with rfl | ⟨q, turn, progress, -⟩
      · exact hr
      · have := turn.index_le
        simp only [List.length_nil] at enough
        omega
  | cons c budget ih =>
    let after : Place → Option α :=
      fun q => if p.index < q.index then runTurns body.run next budget q else none
    have turned : (body.run after p).isSome = true ↔
        ∃ q, Matches body p q ∧ p.index < q.index ∧
          ∃ r, Matches (turns body) q r ∧ (next r).isSome = true := by
      rw [hbody]
      refine exists_congr fun q => and_congr_right fun turn => ?_
      simp only [after]
      split
      · next progress =>
        have := turn.index_le
        simp only [List.length_cons] at enough
        rw [ih q (by omega)]
        simp [progress]
      · next still => simp [still]
    have step : (∃ r, Matches (turns body) p r ∧ (next r).isSome = true) ↔
        (next p).isSome = true ∨ (body.run after p).isSome = true := by
      rw [turned]
      constructor
      · rintro ⟨r, h, hr⟩
        rcases Matches.turns_iff.1 h with rfl | ⟨q, turn, progress, tail⟩
        · exact .inl hr
        · exact .inr ⟨q, turn, progress, r, tail, hr⟩
      · rintro (h | ⟨q, turn, progress, r, tail, hr⟩)
        · exact ⟨_, .turnsStop _ _, h⟩
        · exact ⟨r, .turnsMore turn progress tail, hr⟩
    have run : runTurns body.run next (c :: budget) p = (body.run after p).or (next p) := by
      rw [runTurns]
      cases body.run after p <;> rfl
    rw [step, run, Option.isSome_or, Bool.or_eq_true, or_comm]

/-- A run succeeds exactly when the pattern matches a stretch that is accepted by what follows. -/
theorem isSome_run_iff (pattern : Pattern) (next : Place → Option α) (p : Place) :
    (pattern.run next p).isSome = true ↔
      ∃ q, Matches pattern p q ∧ (next q).isSome = true := by
  induction pattern generalizing next p with
  | nothing =>
    refine ⟨fun h => ⟨p, .nothing p, h⟩, ?_⟩
    rintro ⟨q, h, hq⟩
    cases h
    exact hq
  | one accepts =>
    constructor
    · intro h
      simp only [run] at h
      split at h
      · next c rest head =>
        split at h
        · next accepted => exact ⟨_, .one head accepted, h⟩
        · cases h
      · cases h
    · rintro ⟨q, h, hq⟩
      cases h with
      | one head accepted => simp [run, head, accepted, hq]
  | many accepts => exact isSome_runMany_iff accepts next p.rest p.index p.before
  | edge =>
    constructor
    · intro h
      simp only [run] at h
      split at h
      · next here => exact ⟨p, .edge here, h⟩
      · cases h
    · rintro ⟨q, h, hq⟩
      cases h with
      | edge here => simp [run, here, hq]
  | lineStart =>
    constructor
    · intro h
      simp only [run] at h
      split at h
      · next here => exact ⟨p, .lineStart here, h⟩
      · cases h
    · rintro ⟨q, h, hq⟩
      cases h with
      | lineStart here => simp [run, here, hq]
  | lineEnd =>
    constructor
    · intro h
      simp only [run] at h
      split at h
      · next here => exact ⟨p, .lineEnd here, h⟩
      · cases h
    · rintro ⟨q, h, hq⟩
      cases h with
      | lineEnd here => simp [run, here, hq]
  | short stop => exact isSome_runShort_iff stop next p.rest p.index p.before
  | both first second left right =>
    simp only [run, left, right]
    constructor
    · rintro ⟨q, hq, r, hr, accepted⟩
      exact ⟨r, .both hq hr, accepted⟩
    · rintro ⟨r, h, accepted⟩
      cases h with
      | both hq hr => exact ⟨_, hq, _, hr, accepted⟩
  | either first second left right =>
    have step : ((either first second).run next p).isSome = true ↔
        (first.run next p).isSome = true ∨ (second.run next p).isSome = true := by
      simp only [run]
      cases first.run next p <;> simp
    rw [step, left, right]
    constructor
    · rintro (⟨q, hq, accepted⟩ | ⟨q, hq, accepted⟩)
      · exact ⟨q, .first hq, accepted⟩
      · exact ⟨q, .second hq, accepted⟩
    · rintro ⟨q, h, accepted⟩
      cases h with
      | first hq => exact .inl ⟨q, hq, accepted⟩
      | second hq => exact .inr ⟨q, hq, accepted⟩
  | turns body ih =>
    exact isSome_runTurns_iff body next (fun after => ih after) p.rest p (Nat.le_refl _)

end BundleHook.Code.Pattern
