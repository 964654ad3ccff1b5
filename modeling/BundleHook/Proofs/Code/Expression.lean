import BundleHook.Proofs.Code.Apart
import BundleHook.Proofs.Code.TopLevel

/-!
# Parts of an expression

An expression goes on part by part: with a literal or a block comment, with a group between
delimiters, or with a single character that ends nothing. It ends where no part begins, and an
opening delimiter that is never closed takes the rest of the text.

* `StopsHere`, `IsPart` — where an expression ends, and how it goes on;
* `expressionStop_eq_iff` — the end of an expression is the one place that its parts lead to;
* `expressionStop_le`, `outside_expressionStop` — a reader that steps over groups comes to that end;
* `extents_exact` — expressions, declarations and the declarations that a search finds end in the
  text.
-/

namespace BundleHook.Code

open Text

/-! ## Ends and steps -/

theorem expressionFrom_skip (stops : Text) (index : Nat) {skip : Nat} {t : Text}
    (h : skip ≤ t.length) :
    expressionFrom stops index skip t = expressionFrom stops (index + skip) 0 (t.drop skip) := by
  induction skip generalizing index t with
  | zero => rfl
  | succ skip ih =>
      cases t with
      | nil => cases h
      | cons c rest =>
          refine (ih (index + 1) (Nat.le_of_succ_le_succ h)).trans ?_
          rw [Nat.add_right_comm]
          rfl

theorem matchingCloser_eq_map (t : Text) (i : Nat) :
    matchingCloser t i = (closeOfHead 0 (t.drop i)).map (i + ·) := by
  unfold matchingCloser closeOfHead
  cases hhead : (t.drop i).head? with
  | none => rfl
  | some opener =>
      cases hcloser : closerOf opener with
      | none =>
          simp only [hcloser, Option.bind_eq_bind, Option.bind_some, Option.bind_none,
            Option.map_none]
      | some closer =>
          simp only [hcloser, Option.bind_eq_bind, Option.bind_some, closeFrom_eq]
          rw [← closeAmong_shift, ← scanFrom_add i 0 0, Nat.add_zero]

section Expressions

variable {stops : Text} {t : Text} {i k : Nat}

theorem EndsExpression.of_mem {c : Char} (hc : t[k]? = some c) (h : c ∈ stops) :
    EndsExpression stops (t.drop k) := by
  obtain ⟨hlt, rfl⟩ := List.getElem?_eq_some_iff.1 hc
  exact .inr (.inr ⟨_, _, List.drop_eq_getElem_cons hlt, .inr h⟩)

/-- An expression ends at the head of a text: with the text, at a line comment, or at a line feed or a
stop that begins no literal and opens no group. -/
def StopsHere (stops rest : Text) : Prop :=
  rest = [] ∨ opensLineComment rest = true ∨
    ∃ c behind, rest = c :: behind ∧ (c = '\n' ∨ c ∈ stops) ∧ literalLength rest = 0 ∧
      closerOf c = none

theorem EndsExpression.stopsHere (hstops : ∀ c ∈ stops, IsSimple c) {rest : Text}
    (h : EndsExpression stops rest) : StopsHere stops rest := by
  rcases h with hend | hcomment | ⟨c, behind, rfl, hc⟩
  · exact .inl hend
  · exact .inr (.inl hcomment)
  · have hsimple : IsSimple c := by
      rcases hc with rfl | hc
      · decide
      · exact hstops c hc
    obtain ⟨⟨hslash, hquote, hapostrophe⟩, hcloser⟩ := hsimple
    exact .inr (.inr
      ⟨c, behind, rfl, hc, literalLength_cons hslash hquote hapostrophe behind, hcloser⟩)

theorem expressionStop_of_stopsHere (hi : i ≤ t.length) (h : StopsHere stops (t.drop i)) :
    expressionStop t i stops = i := by
  rw [expressionStop, Nat.min_eq_left hi]
  rcases h with hend | hcomment | ⟨c, behind, hdrop, hc, hcode, hcloser⟩
  · rw [hend]
    rfl
  · cases hdrop : t.drop i with
    | nil => rfl
    | cons c rest => rw [expressionFrom, if_pos (hdrop ▸ hcomment)]
  · rw [hdrop] at hcode ⊢
    rw [expressionFrom]
    split
    · rfl
    · simp only [hcode, hcloser, Option.isSome_none, Bool.false_eq_true, if_false]
      rw [if_pos]
      simpa using hc

/-- Where an expression does not end it goes on with a step, or with the rest of the text. -/
theorem expressionStop_of_not_stopsHere (hi : i ≤ t.length) (h : ¬StopsHere stops (t.drop i)) :
    expressionStop t i stops =
      ((stepOver t i).map (expressionStop t · stops)).getD t.length := by
  have hrest {n : Nat} (hn : i + n ≤ t.length) :
      expressionFrom stops (i + n) 0 (t.drop (i + n)) = expressionStop t (i + n) stops := by
    rw [expressionStop, Nat.min_eq_left hn]
  rw [expressionStop, Nat.min_eq_left hi]
  have hstep {j : Nat} (h : stepOver t i = some j) := bounds_of_stepOver h
  cases hdrop : t.drop i with
  | nil => exact absurd (.inl hdrop) h
  | cons c rest =>
      have hlength := congrArg List.length hdrop
      rw [List.length_drop, List.length_cons] at hlength
      have htail (n : Nat) : rest.drop n = t.drop (i + (n + 1)) := by
        rw [← List.drop_drop, hdrop, List.drop_succ_cons]
      -- Behind a step of some length the expression is read on.
      have hnext {n : Nat} (hn : n ≤ rest.length) :
          expressionFrom stops (i + 1) n rest = expressionStop t (i + (n + 1)) stops := by
        rw [expressionFrom_skip stops (i + 1) hn, htail, Nat.add_right_comm, Nat.add_assoc,
          hrest (by omega)]
      have hmatching := matchingCloser_eq_map t i
      rw [hdrop] at hmatching h
      rw [expressionFrom, if_neg fun hcomment => h (.inr (.inl hcomment))]
      unfold stepOver at hstep ⊢
      rw [hdrop] at hstep ⊢
      rcases hliteral : literalLength (c :: rest) with _ | length
      · simp only [hliteral, hmatching] at hstep ⊢
        split
        · next hopens =>
          rw [if_pos hopens] at hstep
          cases hclose : closeOfHead 0 (c :: rest) with
          | some length =>
              have hle : i + length + 1 ≤ t.length := (hstep (by rw [hclose]; rfl)).2
              exact hnext (by omega)
          | none =>
              simp only [Option.map_none, Option.getD_none]
              omega
        · next hopens =>
          rw [if_neg]
          · exact hnext (Nat.zero_le _)
          · intro hstop
            exact h (.inr (.inr ⟨c, rest, rfl, by simpa using hstop, hliteral, by simpa using hopens⟩))
      · simp only [hliteral] at hstep ⊢
        have hle := (hstep rfl).2
        exact hnext (by omega)

end Expressions

/-! ## Parts -/

/-- An expression goes on from `i` to `j`. -/
inductive IsPart (stops t : Text) (i : Nat) : (j : Nat) → Prop where
  /-- A literal or a block comment. -/
  | literal {n : Nat} (noLineComment : opensLineComment (t.drop i) = false)
      (length : literalLength (t.drop i) = n + 1) : IsPart stops t i (i + (n + 1))
  /-- A delimiter and all through the one that closes it. -/
  | group {close : Nat} (closes : matchingCloser t i = some close) : IsPart stops t i (close + 1)
  /-- A character that begins no literal and no comment, opens no group and ends no expression. -/
  | single {c : Char} (isHere : t[i]? = some c) (isCode : literalLength (t.drop i) = 0)
      (noOpener : closerOf c = none) (noFeed : c ≠ '\n') (noStop : c ∉ stops) :
      IsPart stops t i (i + 1)

/-- All from `i` to `j` is parts of an expression. -/
def Parts (stops t : Text) : (i j : Nat) → Prop := Relation.ReflTransGen (IsPart stops t)

/-- A delimiter opens at `i` that is never closed. -/
def IsUnclosed (t : Text) (i : Nat) : Prop :=
  ∃ c, t[i]? = some c ∧ (closerOf c).isSome = true ∧ matchingCloser t i = none

/-- The expression from `start` on ends at `stop`: behind its parts, or with the text when an opening
delimiter behind some parts is never closed. -/
def StopsAt (stops t : Text) (start stop : Nat) : Prop :=
  (Parts stops t start stop ∧ StopsHere stops (t.drop stop)) ∨
    stop = t.length ∧ ∃ k, Parts stops t start k ∧ IsUnclosed t k

section Expressions

variable {stops : Text} {t : Text} {i j k : Nat}

theorem literalLength_pos_of_opensLineComment {rest : Text} (h : opensLineComment rest = true) :
    0 < literalLength rest := by
  unfold opensLineComment at h
  split at h
  · exact Nat.succ_pos _
  · cases h

/-- What is code and no end of an expression does not stop it. -/
theorem not_stopsHere_of_code {c : Char} (hc : t[i]? = some c)
    (hcode : literalLength (t.drop i) = 0)
    (hgoes : c ≠ '\n' ∧ c ∉ stops ∨ closerOf c ≠ none) : ¬StopsHere stops (t.drop i) := by
  rintro (hend | hcomment | ⟨d, behind, hdrop, hd, -, hnone⟩)
  · rw [← List.head?_drop, hend] at hc
    cases hc
  · exact absurd hcode (Nat.ne_of_gt (literalLength_pos_of_opensLineComment hcomment))
  · rw [← List.head?_drop, hdrop] at hc
    obtain rfl := Option.some.inj hc
    rcases hgoes with ⟨hfeed, hstop⟩ | hopens
    · exact hd.elim hfeed hstop
    · exact hopens hnone

theorem stepOver_of_code {c : Char} (hc : t[i]? = some c) (hcode : literalLength (t.drop i) = 0) :
    stepOver t i =
      if (closerOf c).isSome then (matchingCloser t i).map (· + 1) else some (i + 1) := by
  obtain ⟨hlt, rfl⟩ := List.getElem?_eq_some_iff.1 hc
  rw [List.drop_eq_getElem_cons hlt] at hcode
  rw [stepOver, List.drop_eq_getElem_cons hlt]
  simp only [hcode]

/-- The parts of an expression are the steps of the reader from where the expression does not end. -/
theorem isPart_iff : IsPart stops t i j ↔ stepOver t i = some j ∧ ¬StopsHere stops (t.drop i) := by
  constructor
  · intro h
    cases h with
    | @literal n hcomment hlength =>
        cases hdrop : t.drop i with
        | nil => rw [hdrop] at hlength; cases hlength
        | cons c rest =>
            rw [hdrop] at hcomment hlength
            refine ⟨by simp only [stepOver, hdrop, hlength], ?_⟩
            rintro (hend | hline | ⟨-, -, -, -, hcode, -⟩)
            · cases hend
            · rw [hcomment] at hline; cases hline
            · rw [hlength] at hcode; cases hcode
    | @group close hcloses =>
        obtain ⟨opener, closer, hopener, hkind, -, -⟩ := matchingCloser_eq_some hcloses
        obtain ⟨hlt, rfl⟩ := List.getElem?_eq_some_iff.1 hopener
        have hcode : literalLength (t.drop i) = 0 := by
          rw [List.drop_eq_getElem_cons hlt, literalLength_of_closerOf hkind]
        refine ⟨?_, not_stopsHere_of_code hopener hcode (.inr (by simp [hkind]))⟩
        rw [stepOver_of_code hopener hcode, hkind, hcloses]
        rfl
    | @single c hc hcode hopener hfeed hstop =>
        refine ⟨?_, not_stopsHere_of_code hc hcode (.inl ⟨hfeed, hstop⟩)⟩
        rw [stepOver_of_code hc hcode, hopener]
        rfl
  · rintro ⟨hstep, hgoes⟩
    cases hdrop : t.drop i with
    | nil => exact absurd (.inl hdrop) hgoes
    | cons c rest =>
        have hc : t[i]? = some c := by rw [← List.head?_drop, hdrop]; rfl
        rcases hliteral : literalLength (t.drop i) with _ | length
        · rw [stepOver_of_code hc hliteral] at hstep
          cases hopens : closerOf c with
          | some closer =>
              rw [hopens] at hstep
              obtain ⟨close, hcloses, rfl⟩ := Option.map_eq_some_iff.1 hstep
              exact .group hcloses
          | none =>
              rw [hopens] at hstep
              obtain rfl := Option.some.inj hstep
              have hstop : ¬(c = '\n' ∨ c ∈ stops) := fun hstop =>
                hgoes (.inr (.inr ⟨c, rest, hdrop, hstop, hliteral, hopens⟩))
              exact .single hc hliteral hopens (fun h => hstop (.inl h)) fun h => hstop (.inr h)
        · have hcomment : opensLineComment (t.drop i) = false :=
            Bool.eq_false_iff.2 fun h => hgoes (.inr (.inl h))
          rw [hdrop] at hliteral
          simp only [stepOver, hdrop, hliteral, Option.some.injEq] at hstep
          subst hstep
          exact .literal hcomment (hdrop ▸ hliteral)

theorem bounds_of_isPart (h : IsPart stops t i j) : i < j ∧ j ≤ t.length :=
  bounds_of_stepOver (isPart_iff.1 h).1

/-- The reader is stuck before a delimiter that is never closed, and there only. -/
theorem isUnclosed_iff (hi : i < t.length) : IsUnclosed t i ↔ stepOver t i = none := by
  have hhere := List.getElem?_eq_getElem hi
  constructor
  · rintro ⟨c, hc, hopens, hnone⟩
    obtain ⟨closer, hkind⟩ := Option.isSome_iff_exists.1 hopens
    obtain rfl := Option.some.inj (hhere.symm.trans hc)
    have hcode : literalLength (t.drop i) = 0 := by
      rw [List.drop_eq_getElem_cons hi, literalLength_of_closerOf hkind]
    rw [stepOver_of_code hc hcode, if_pos hopens, hnone]
    rfl
  · intro hstep
    rcases hliteral : literalLength (t.drop i) with _ | length
    · rw [stepOver_of_code hhere hliteral] at hstep
      split at hstep
      · next hopens => exact ⟨_, hhere, hopens, Option.map_eq_none_iff.1 hstep⟩
      · cases hstep
    · rw [List.drop_eq_getElem_cons hi] at hliteral
      rw [stepOver, List.drop_eq_getElem_cons hi] at hstep
      simp only [hliteral] at hstep
      cases hstep

theorem IsUnclosed.not_stopsHere (h : IsUnclosed t i) : ¬StopsHere stops (t.drop i) := by
  obtain ⟨c, hc, hopens, -⟩ := h
  obtain ⟨closer, hkind⟩ := Option.isSome_iff_exists.1 hopens
  obtain ⟨hlt, rfl⟩ := List.getElem?_eq_some_iff.1 hc
  refine not_stopsHere_of_code hc ?_ (.inr (by simp [hkind]))
  rw [List.drop_eq_getElem_cons hlt, literalLength_of_closerOf hkind]

/-! ## The end of an expression -/

/-- Behind its first parts an expression ends where it would end if it began there. -/
theorem Parts.expressionStop_eq (h : Parts stops t i k) :
    expressionStop t i stops = expressionStop t k stops := by
  induction h using Relation.ReflTransGen.head_induction_on with
  | refl => rfl
  | @head i j hpart _ ih =>
      obtain ⟨hstep, hgoes⟩ := isPart_iff.1 hpart
      obtain ⟨hij, hj⟩ := bounds_of_isPart hpart
      rw [expressionStop_of_not_stopsHere (by omega) hgoes, hstep]
      exact ih

theorem Parts.le_length (h : Parts stops t i k) (hi : i ≤ t.length) : k ≤ t.length := by
  cases h with
  | refl => exact hi
  | tail _ hpart => exact (bounds_of_isPart hpart).2

theorem stopsAt_expressionStop (hi : i ≤ t.length) :
    StopsAt stops t i (expressionStop t i stops) := by
  generalize hn : t.length - i = n
  induction n using Nat.strongRecOn generalizing i with
  | ind n ih =>
      by_cases hhere : StopsHere stops (t.drop i)
      · rw [expressionStop_of_stopsHere hi hhere]
        exact .inl ⟨.refl, hhere⟩
      · have hlt : i < t.length := Nat.lt_of_le_of_ne hi fun heq =>
          hhere (.inl (List.drop_eq_nil_of_le (Nat.le_of_eq heq.symm)))
        rw [expressionStop_of_not_stopsHere hi hhere]
        cases hstep : stepOver t i with
        | none => exact .inr ⟨rfl, i, .refl, (isUnclosed_iff hlt).2 hstep⟩
        | some j =>
            have hpart : IsPart stops t i j := isPart_iff.2 ⟨hstep, hhere⟩
            obtain ⟨hij, hj⟩ := bounds_of_isPart hpart
            rcases ih (t.length - j) (by omega) hj rfl with ⟨hparts, hends⟩ | ⟨hend, k, hparts, hk⟩
            · exact .inl ⟨hparts.head hpart, hends⟩
            · exact .inr ⟨hend, k, hparts.head hpart, hk⟩

/-- The end of an expression is the one place that its parts lead to. -/
theorem expressionStop_eq_iff (hi : i ≤ t.length) :
    expressionStop t i stops = k ↔ StopsAt stops t i k := by
  refine ⟨fun h => h ▸ stopsAt_expressionStop hi, ?_⟩
  rintro (⟨hparts, hends⟩ | ⟨rfl, k, hparts, hk⟩)
  · rw [hparts.expressionStop_eq, expressionStop_of_stopsHere (hparts.le_length hi) hends]
  · have hlt : k < t.length := by
      obtain ⟨c, hc, -⟩ := hk
      exact (List.getElem?_eq_some_iff.1 hc).1
    rw [hparts.expressionStop_eq,
      expressionStop_of_not_stopsHere (Nat.le_of_lt hlt) hk.not_stopsHere,
      (isUnclosed_iff hlt).1 hk]
    rfl

theorem Parts.outside (h : Parts stops t i k) : Outside t i k := by
  induction h with
  | refl => exact .refl
  | tail _ hpart ih => exact ih.tail (isPart_iff.1 hpart).1

/-- An expression that ends in the text ends outside all delimiters. -/
theorem outside_expressionStop (hi : i ≤ t.length) (h : expressionStop t i stops < t.length) :
    Outside t i (expressionStop t i stops) := by
  rcases @stopsAt_expressionStop stops t i hi with ⟨hparts, -⟩ | ⟨hend, -⟩
  · exact hparts.outside
  · exact absurd hend (Nat.ne_of_lt h)

/-- The reader comes to no end of an expression before the expression ends. -/
theorem expressionStop_le (hstops : ∀ c ∈ stops, IsSimple c) (hk : k ≤ t.length)
    (h : Outside t i k) (hends : EndsExpression stops (t.drop k)) :
    expressionStop t i stops ≤ k := by
  induction h using Relation.ReflTransGen.head_induction_on with
  | refl => exact Nat.le_of_eq (expressionStop_of_stopsHere hk (hends.stopsHere hstops))
  | @head i j hstep hlater ih =>
      have hi : i ≤ t.length :=
        Nat.le_trans (Nat.le_of_lt (bounds_of_stepOver hstep).1) (bounds_of_stepOver hstep).2
      by_cases hhere : StopsHere stops (t.drop i)
      · rw [expressionStop_of_stopsHere hi hhere]
        exact Nat.le_trans (Nat.le_of_lt (bounds_of_stepOver hstep).1) (Outside.le hlater)
      · rw [expressionStop_of_not_stopsHere hi hhere, hstep]
        exact ih

end Expressions

/-! ## Extents -/

theorem signatureEnd_lt_length {t : Text} {signatureEnd stop : Nat}
    (h : declarationStop t signatureEnd = some stop) : signatureEnd < t.length := by
  refine Decidable.byContradiction fun hle => ?_
  rw [Nat.not_lt] at hle
  simp [declarationStop, List.drop_eq_nil_of_le (Nat.le_trans hle (Nat.le_add_right _ _)),
    skipBlanks] at h

/-- No signature before the one that a search stops at has a body. -/
theorem declarationStop_eq_none_of_earlier {t : Text} {signature : Pattern} {before after : List Span}
    {stretch : Span} (hsplit : signature.stretches t = before ++ stretch :: after)
    (hnone : ∀ other ∈ before, declarationAt t other = none) {other : Span}
    (hmem : other ∈ signature.stretches t) (hearlier : other.start < stretch.start) :
    declarationStop t other.stop = none := by
  have hsorted := Pattern.stretchesFrom_sorted signature t 0 0 none
  rw [← Pattern.stretches, hsplit, List.pairwise_append, List.pairwise_cons] at hsorted
  rw [hsplit, List.mem_append, List.mem_cons] at hmem
  rcases hmem with hbefore | rfl | hafter
  · exact Option.map_eq_none_iff.1 (hnone other hbefore)
  · exact absurd hearlier (Nat.lt_irrefl _)
  · exact absurd (hsorted.2.1.1 other hafter) (Nat.not_lt.2 (Nat.le_of_lt hearlier))

theorem firstDeclaration_isFirst {t : Text} {signature : Pattern} {span : Span}
    (h : firstDeclaration t signature = some span) :
    ∃ stretch ∈ signature.stretches t, signature.MatchesAt t stretch ∧
      stretch.start = span.start ∧ declarationStop t stretch.stop = some span.stop ∧
      ∀ other ∈ signature.stretches t, other.start < stretch.start →
        declarationStop t other.stop = none := by
  obtain ⟨before, stretch, after, hsplit, hhere, hnone⟩ := List.findSome?_eq_some_iff.1 h
  obtain ⟨stop, hstop, rfl⟩ := Option.map_eq_some_iff.1 hhere
  have hmem : stretch ∈ signature.stretches t := by simp [hsplit]
  exact ⟨stretch, hmem, Pattern.matchesAt_of_mem_stretches hmem, rfl, hstop,
    fun other hother => declarationStop_eq_none_of_earlier hsplit hnone hother⟩

/-- Expressions end exactly where their parts do, and in the text. So a declaration ends in the text
behind its signature, and a search finds the first signature of a shape that has a body. -/
theorem extents_exact (t : Text) :
    (∀ start stops, start ≤ t.length →
      start ≤ expressionStop t start stops ∧ expressionStop t start stops ≤ t.length ∧
        ∀ stop, expressionStop t start stops = stop ↔ StopsAt stops t start stop) ∧
    (∀ signatureEnd stop, declarationStop t signatureEnd = some stop →
      signatureEnd < stop ∧ stop ≤ t.length) ∧
    ∀ signature span, firstDeclaration t signature = some span →
      span.start < span.stop ∧ span.stop ≤ t.length ∧
        ∃ stretch ∈ signature.stretches t, signature.MatchesAt t stretch ∧
          stretch.start = span.start ∧ declarationStop t stretch.stop = some span.stop ∧
          ∀ other ∈ signature.stretches t, other.start < stretch.start →
            declarationStop t other.stop = none := by
  refine ⟨fun start stops hstart => ?_, fun signatureEnd stop hstop => ?_, fun signature span h => ?_⟩
  · obtain ⟨hbehind, hlength, -⟩ := expressionStop_spec hstart stops
    exact ⟨hbehind, hlength, fun stop => expressionStop_eq_iff hstart⟩
  · have hsignature := Nat.le_of_lt (signatureEnd_lt_length hstop)
    obtain ⟨hbehind, hlength, -⟩ := declarationStop_eq_some hsignature hstop
    exact ⟨hbehind, hlength⟩
  · obtain ⟨hstart, hlength, -⟩ := firstDeclaration_eq_some h
    exact ⟨hstart, hlength, firstDeclaration_isFirst h⟩

/-- A function without a body, and one whose value ends before a comment. -/
def twoFunctions : Text := "fun a\nfun b = c(\"\x7d\", [2]) // d".toList

theorem extents_exact_twoFunctions :
    StopsAt [] twoFunctions 14 26 ∧ 11 < 26 ∧
      ∃ stretch ∈ (Pattern.word "fun" ++ Pattern.gap ++ Pattern.name).stretches twoFunctions,
        stretch.start = 6 ∧ declarationStop twoFunctions stretch.stop = some 26 := by
  obtain ⟨hexpression, hdeclaration, hsearch⟩ := extents_exact twoFunctions
  obtain ⟨-, -, hends⟩ := hexpression 14 [] (by decide)
  obtain ⟨-, -, stretch, hmem, -, hstart, hstop, -⟩ :=
    hsearch (Pattern.word "fun" ++ Pattern.gap ++ Pattern.name) ⟨6, 26⟩ (by decide +kernel)
  exact ⟨(hends 26).1 (by decide +kernel), (hdeclaration 11 26 (by decide +kernel)).1,
    stretch, hmem, hstart, hstop⟩

end BundleHook.Code
