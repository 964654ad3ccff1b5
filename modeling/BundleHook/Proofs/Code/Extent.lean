import BundleHook.Proofs.Code.Stretches

/-!
# Where declarations end

A closing delimiter stands behind its opening one and in the text, an expression ends inside the
text at the end of a line, at a stop or before a comment, and so a declaration with a body is a part
of the text that is not empty. What stands at its end is a brace before it, or one of the ends of an
expression.
-/

namespace BundleHook.Code

open Text

/-! ## Delimiters -/

theorem closeFrom_eq_some {opener closer : Char} {index skip depth : Nat} {t : Text} {r : Nat}
    (h : closeFrom opener closer index skip depth t = some r) :
    ∃ n, r = index + n ∧ t[n]? = some closer := by
  induction t generalizing index skip depth with
  | nil => cases skip <;> cases h
  | cons c rest ih =>
      have hlater {skip depth : Nat}
          (h : closeFrom opener closer (index + 1) skip depth rest = some r) :
          ∃ n, r = index + n ∧ (c :: rest)[n]? = some closer := by
        obtain ⟨n, hr, hn⟩ := ih h
        exact ⟨n + 1, by omega, hn⟩
      cases skip with
      | succ skip => exact hlater h
      | zero =>
          rw [closeFrom] at h
          split at h
          · exact hlater h
          split at h
          · exact hlater h
          split at h
          · next hcloses =>
            split at h
            · exact ⟨0, (Option.some.inj h).symm, congrArg some hcloses⟩
            · exact hlater h
          · exact hlater h

theorem matchingCloser_eq_some {t : Text} {index r : Nat} (h : matchingCloser t index = some r) :
    ∃ opener closer, t[index]? = some opener ∧ closerOf opener = some closer ∧
      index ≤ r ∧ t[r]? = some closer := by
  simp only [matchingCloser, closeOfHead, Option.bind_eq_bind, Option.bind_eq_some_iff] at h
  obtain ⟨opener, hopener, closer, hcloser, h⟩ := h
  obtain ⟨n, rfl, hn⟩ := closeFrom_eq_some h
  rw [List.head?_drop] at hopener
  rw [List.getElem?_drop] at hn
  exact ⟨opener, closer, hopener, hcloser, Nat.le_add_right _ _, hn⟩

theorem lt_length_of_matchingCloser {t : Text} {index r : Nat}
    (h : matchingCloser t index = some r) : r < t.length := by
  obtain ⟨-, closer, -, -, -, hr⟩ := matchingCloser_eq_some h
  exact (List.getElem?_eq_some_iff.1 hr).1

/-! ## Expressions -/

/-- A text at whose start an expression ends. -/
def EndsExpression (stops rest : Text) : Prop :=
  rest = [] ∨ opensLineComment rest = true ∨
    ∃ c behind, rest = c :: behind ∧ (c = '\n' ∨ c ∈ stops)

theorem expressionFrom_spec (stops : Text) (index skip : Nat) (t : Text) :
    ∃ n ≤ t.length, expressionFrom stops index skip t = index + n ∧
      EndsExpression stops (t.drop n) := by
  induction t generalizing index skip with
  | nil => exact ⟨0, Nat.le_refl _, by cases skip <;> rfl, .inl rfl⟩
  | cons c rest ih =>
      have hlater (skip : Nat) : ∃ n ≤ (c :: rest).length,
          expressionFrom stops (index + 1) skip rest = index + n ∧
            EndsExpression stops ((c :: rest).drop n) := by
        obtain ⟨n, hn, hr, hends⟩ := ih (index + 1) skip
        exact ⟨n + 1, Nat.succ_le_succ hn, by omega, hends⟩
      cases skip with
      | succ skip => exact hlater skip
      | zero =>
          rw [expressionFrom]
          split
          · next hcomment => exact ⟨0, Nat.zero_le _, rfl, .inr (.inl hcomment)⟩
          split
          · exact hlater _
          split
          · split
            · exact hlater _
            · exact ⟨rest.length + 1, Nat.le_refl _, rfl, .inl (by simp)⟩
          split
          · next hstop =>
            refine ⟨0, Nat.zero_le _, rfl, .inr (.inr ⟨c, rest, rfl, ?_⟩)⟩
            simpa using hstop
          · exact hlater _

theorem expressionStop_spec {t : Text} {start : Nat} (hstart : start ≤ t.length) (stops : Text) :
    start ≤ expressionStop t start stops ∧ expressionStop t start stops ≤ t.length ∧
      EndsExpression stops (t.drop (expressionStop t start stops)) := by
  obtain ⟨n, hn, hstop, hends⟩ := expressionFrom_spec stops start 0 (t.drop start)
  have heq : expressionStop t start stops = start + n := by
    rw [expressionStop, Nat.min_eq_left hstart, hstop]
  rw [List.length_drop] at hn
  rw [List.drop_drop] at hends
  rw [heq]
  exact ⟨Nat.le_add_right _ _, by omega, hends⟩

theorem skipBlanks_le {t : Text} {index : Nat} (h : index ≤ t.length) :
    index ≤ skipBlanks t index ∧ skipBlanks t index ≤ t.length := by
  have hrun := (t.drop index).takeWhile_sublist isBlank |>.length_le
  rw [List.length_drop] at hrun
  unfold skipBlanks
  omega

/-! ## Declarations -/

/-- What stands around the end of a declaration: a brace before it, or the end of an expression. -/
def EndsDeclaration (t : Text) (stop : Nat) : Prop :=
  t[stop - 1]? = some '}' ∨ EndsExpression [] (t.drop stop)

theorem declarationStop_eq_some {t : Text} {signatureEnd stop : Nat}
    (hsignature : signatureEnd ≤ t.length) (h : declarationStop t signatureEnd = some stop) :
    signatureEnd < stop ∧ stop ≤ t.length ∧ EndsDeclaration t stop := by
  obtain ⟨hle, hlength⟩ := skipBlanks_le hsignature
  unfold declarationStop at h
  simp only at h
  split at h
  · next behind hbody =>
    -- The block closes with the brace that matches the one behind the signature.
    obtain ⟨close, hclose, rfl⟩ := Option.map_eq_some_iff.1 h
    obtain ⟨opener, closer, hopener, hcloser, hbehind, hends⟩ := matchingCloser_eq_some hclose
    have hbrace : t[skipBlanks t signatureEnd]? = some '{' := by
      rw [← List.head?_drop, hbody]
      rfl
    obtain rfl : '{' = opener := Option.some.inj (hbrace.symm.trans hopener)
    obtain rfl : '}' = closer := Option.some.inj hcloser
    have hlt := lt_length_of_matchingCloser hclose
    exact ⟨by omega, by omega, .inl hends⟩
  · next behind hbody =>
    have hlt : skipBlanks t signatureEnd < t.length := by
      have hlengths := congrArg List.length hbody
      rw [List.length_drop, List.length_cons] at hlengths
      omega
    obtain ⟨hvalue, hvalueLength⟩ := @skipBlanks_le t (skipBlanks t signatureEnd + 1) (by omega)
    obtain ⟨-, hstopLength, hends⟩ := expressionStop_spec hvalueLength []
    split at h
    · next hbefore =>
      obtain rfl := Option.some.inj h
      exact ⟨by omega, hstopLength, .inr hends⟩
    · cases h
  · cases h

/-- The first declaration of a shape is a part of the text that begins with the shape. -/
theorem firstDeclaration_eq_some {t : Text} {signature : Pattern} {span : Span}
    (h : firstDeclaration t signature = some span) :
    span.start < span.stop ∧ span.stop ≤ t.length ∧ EndsDeclaration t span.stop ∧
      ∃ stop, signature.MatchesAt t ⟨span.start, stop⟩ ∧ declarationStop t stop = some span.stop := by
  obtain ⟨stretch, hstretch, hdeclaration⟩ := List.exists_of_findSome?_eq_some h
  have hmatches := Pattern.matchesAt_of_mem_stretches hstretch
  obtain ⟨stop, hstop, rfl⟩ := Option.map_eq_some_iff.1 hdeclaration
  obtain ⟨hlt, hlength, hends⟩ := declarationStop_eq_some hmatches.2.1 hstop
  exact ⟨Nat.lt_of_le_of_lt hmatches.1 hlt, hlength, hends, stretch.stop, hmatches, hstop⟩

end BundleHook.Code
