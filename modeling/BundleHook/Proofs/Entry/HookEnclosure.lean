import BundleHook.Proofs.Entry.HookNesting

/-!
# Blocks around a replaced hook

A hook takes the place of the first declaration of its shape. The blocks around the declaration stay
closed where they were exactly when the declaration is balanced: that is so of every declaration
with a block for its body, and not of one whose single expression shares its line with the brace
that closes the class.
-/

namespace BundleHook

open Text Code Code.Pattern Entry

namespace HookForm

variable {form : HookForm} {t : Text} {span : Span}

/-- A scan comes through the signature of a declaration, and meets all of it. -/
theorem reaches_signatureEnd (h : form.IsTame) {stop : Nat}
    (hmatches : form.signature.MatchesAt t ⟨span.start, stop⟩) :
    Reaches t span.start stop ∧ codeBetween t span.start stop = slice t span.start stop :=
  reaches_of_plain hmatches.1 hmatches.2.1 fun c hc => (h.braceless.mem_slice hmatches c hc).1

theorem reaches_stop (h : form.IsTame) (hspan : firstDeclaration t form.signature = some span) :
    Reaches t span.start span.stop := by
  obtain ⟨-, -, -, stop, hmatches, hstop⟩ := firstDeclaration_eq_some hspan
  obtain ⟨hlt, -, -⟩ := declarationStop_eq_some hmatches.2.1 hstop
  exact (reaches_signatureEnd h hmatches).1.trans (.declarationStop hmatches.2.1 hstop)
    (Nat.le_of_lt hlt)

/-- A declaration with a block for its body is balanced in braces. -/
theorem balanced_of_block (h : form.IsTame) {stop : Nat}
    (hmatches : form.signature.MatchesAt t ⟨span.start, stop⟩)
    (hstop : declarationStop t stop = some span.stop)
    (hbrace : t[skipBlanks t stop]? = some '{') :
    Balanced '{' '}' (codeBetween t span.start span.stop) := by
  have hlength : stop ≤ t.length := hmatches.2.1
  obtain ⟨hle, -⟩ := skipBlanks_le hlength
  obtain ⟨hsignature, hcode⟩ := reaches_signatureEnd h hmatches
  obtain ⟨hblank, hblankCode⟩ := reaches_skipBlanks hlength
  have hbody : t.drop (skipBlanks t stop) = '{' :: (t.drop (skipBlanks t stop)).tail := by
    rw [← List.head?_drop] at hbrace
    exact (List.eq_cons_of_mem_head? hbrace)
  unfold declarationStop at hstop
  simp only at hstop
  rw [hbody] at hstop
  obtain ⟨close, hclose, hend⟩ := Option.map_eq_some_iff.1 hstop
  obtain ⟨-, -, -, -, hbehind, -⟩ := matchingCloser_eq_some hclose
  have hblock := balanced_of_matchingCloser rfl hbrace hclose
  have hsplit : codeBetween t span.start span.stop =
      slice t span.start stop ++ ((t.drop stop).takeWhile isBlank ++
        codeBetween t (skipBlanks t stop) (close + 1)) := by
    rw [hsignature.codeBetween_append (by omega), hcode, hblank.codeBetween_append (by omega),
      hblankCode, hend]
  have hplain : ∀ c ∈ slice t span.start stop ++ (t.drop stop).takeWhile isBlank,
      c ≠ '{' ∧ c ≠ '}' := by
    rw [List.forall_mem_append]
    refine ⟨fun c hc => (h.braceless.mem_slice hmatches c hc).2, fun c hc => ?_⟩
    exact (isBraceless_of_isBlank c (List.all_eq_true.1 List.all_takeWhile c hc)).2
  rw [balanced_iff (by decide)] at hblock ⊢
  rw [hsplit, ← List.append_assoc, openAfter_append, openAfter_of_not_mem hplain]
  exact hblock

end HookForm

/-- The blocks around a replaced hook. -/
theorem blocks_around_hook {form : HookForm} (hform : form ∈ HookForm.all) {t : Text} {span : Span}
    (hspan : firstDeclaration t form.signature = some span) {opener closer : Char}
    (hkind : closerOf opener = some closer) :
    ((∀ o c, Encloses t opener span.start o c → span.stop ≤ c) ↔
      ((∃ o c, Encloses t opener span.start o c) →
        KeepsOpen opener closer (codeBetween t span.start span.stop))) ∧
    ((∀ o c, Encloses t opener span.start o c → span.stop ≤ c ∧
        matchingCloser (replaceSpan t span form.hook) o = some (c - span.stop +
          (span.start + (indentRest form.hook (indentOfLine t span.start)).length))) ↔
      ((∃ o c, Encloses t opener span.start o c) →
        Balanced opener closer (codeBetween t span.start span.stop))) ∧
    ∀ stop, form.signature.MatchesAt t ⟨span.start, stop⟩ →
      declarationStop t stop = some span.stop → t[skipBlanks t stop]? = some '{' →
      Balanced '{' '}' (codeBetween t span.start span.stop) := by
  have htame := HookForm.isTame_of_mem_all hform
  have hreaches := HookForm.reaches_stop htame hspan
  obtain ⟨-, -, -, stop, hmatches, -⟩ := firstDeclaration_eq_some hspan
  obtain ⟨d, hlead, hd⟩ := htame.opens.of_matchesAt hmatches
  rw [List.head?_drop] at hd
  have hfeed : d ≠ '\n' := by rintro rfl; exact absurd hlead (by decide)
  obtain ⟨code, hpasses, hbalanced⟩ := htame.block.exists_passes_indentRest
    (.indentOfLine t span.start)
  refine ⟨?_, ?_, fun stop hmatches hstop hbrace =>
    HookForm.balanced_of_block htame hmatches hstop hbrace⟩
  · exact enclosing_behind_iff hkind hreaches
  · rw [replaceSpan, List.append_assoc]
    exact enclosing_kept_iff hkind hreaches hpasses (hbalanced opener closer hkind)
      (htame.lead.inert_indentRest _ _) hd hfeed

/-- A class on one line, with a hook whose body is a block. -/
def blockHookClass : Text :=
  "class A \x7b override fun getJSBundleFile(): String? \x7b return null \x7d \x7d".toList

theorem blocks_around_hook_blockHookClass :
    ∃ form ∈ HookForm.all, ∃ span, firstDeclaration blockHookClass form.signature = some span ∧
      ∀ o c, Encloses blockHookClass '{' span.start o c → span.stop ≤ c ∧
        matchingCloser (replaceSpan blockHookClass span form.hook) o = some (c - span.stop +
          (span.start + (indentRest form.hook (indentOfLine blockHookClass span.start)).length)) := by
  have hform : ⟨.kotlin, hookInKotlin, kotlinBundleMethod⟩ ∈ HookForm.all := .tail _ (.head _)
  have hspan : firstDeclaration blockHookClass kotlinBundleMethod = some ⟨10, 65⟩ := by
    decide
  have hbalanced : Balanced '{' '}' (codeBetween blockHookClass 10 65) :=
    (balanced_iff (by decide)).2 (by decide)
  exact ⟨_, hform, _, hspan, (blocks_around_hook hform hspan rfl).2.1.2 fun _ => hbalanced⟩

/-- A class on one line, with a hook whose body is a single expression. -/
def expressionHookClass : Text :=
  "class A \x7b override fun getJSBundleFile(): String? = null\x7d".toList

/-- The hook takes the brace that closes the class along. -/
theorem brace_lost_with_expressionHook :
    ∃ span o c, firstDeclaration expressionHookClass kotlinBundleMethod = some span ∧
      Encloses expressionHookClass '{' span.start o c ∧ c < span.stop := by
  refine ⟨⟨10, 57⟩, 8, 56, by decide, ⟨by decide, by decide, ⟨'o', ?_⟩, ?_, by decide⟩,
    by decide⟩
  · decide
  · decide

end BundleHook
