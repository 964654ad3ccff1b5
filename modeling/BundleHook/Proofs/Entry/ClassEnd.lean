import BundleHook.Proofs.Code.Taking
import BundleHook.Proofs.Entry.ClassBody

/-!
# Hooks at the end of a class

A hook that becomes the last member of a class is put in before the closing brace, at the start of
its line when the brace stands alone there. The place is code of the class, and the hook completes
nothing that stands before it, so the class and all pairs before the hook close as they did.

* `PutAtClassEnd` — the texts with a hook as the last member of a class;
* `exists_mem_scan_inserted` — a hook begins in code;
* `class_kept_around_hook` — what becomes of the class.
-/

namespace BundleHook

open Text Code Code.Pattern Entry

/-! ## Insertions -/

/-- The hooks that are put at the end of a class. -/
def Entry.memberHooks : List Text := [hookInKotlin, hookInJava, hookInSwift]

/-- The text with a hook as the last member of the class whose opening brace stands at an offset. -/
inductive PutAtClassEnd (t : Text) : (hook : Text) → (openBrace : Nat) → (out : Text) → Prop where
  /-- Any of the hooks, in an application class. -/
  | application {hook out : Text} {head : Span} (isHook : hook ∈ memberHooks)
      (isHead : MainApplication.classPattern.search t = some head)
      (isOut : MainApplication.placeAtClassEnd t hook = some out) :
      PutAtClassEnd t hook (head.stop - 1) out
  /-- The Swift hook, in a delegate without an earlier hook and without a launch method. -/
  | delegate {out : Text} {head : Span} (noHook : firstDeclaration t swiftBundleMethod = none)
      (noLaunch : AppDelegate.swiftLaunchMethod.search t = none)
      (isHead : AppDelegate.swiftClassPattern.search t = some head)
      (isOut : AppDelegate.installSwift t = some out) :
      PutAtClassEnd t hookInSwift (head.stop - 1) out

/-- The head of a class ends with its opening brace. -/
theorem Code.Pattern.getElem?_of_search_brace {lead : Pattern} {t : Text} {head : Span}
    (h : (lead ++ word "\x7b").search t = some head) : t[head.stop - 1]? = some '\x7b' := by
  obtain ⟨start, -, hbrace⟩ := matchesAt_both (matchesAt_of_search h)
  obtain ⟨hstop, hget⟩ := getElem?_of_matchesAt_text hbrace
  have hone : head.stop - 1 = start + 0 := by
    rw [show head.stop = start + 1 from hstop, Nat.add_sub_cancel, Nat.add_zero]
  rw [hone]
  exact hget 0 Nat.one_pos

namespace PutAtClassEnd

variable {t hook out : Text} {o : Nat}

theorem exists_form (h : PutAtClassEnd t hook o out) : ∃ form ∈ HookForm.all, form.hook = hook := by
  have hall : ∀ hook ∈ memberHooks, ∃ form ∈ HookForm.all, form.hook = hook := by
    simp [memberHooks, HookForm.all]
  cases h with
  | application hhook => exact hall _ hhook
  | delegate => exact hall _ (by simp [memberHooks])

/-- The class begins with a brace that is closed, and the hook goes before the closing one. -/
theorem exists_close (h : PutAtClassEnd t hook o out) :
    ∃ close, t[o]? = some '\x7b' ∧ matchingCloser t o = some close ∧
      out = placeBeforeCloser t close hook (memberIndent t o close) := by
  cases h with
  | application _ hhead hout =>
      simp only [MainApplication.placeAtClassEnd, hhead, Option.bind_eq_bind, Option.bind_some,
        Option.bind_eq_some_iff, Option.pure_def, Option.some.injEq] at hout
      obtain ⟨close, hclose, rfl⟩ := hout
      exact ⟨close, getElem?_of_search_brace hhead, hclose, rfl⟩
  | delegate hnone hlaunch hhead hout =>
      simp only [AppDelegate.installSwift, hnone, hlaunch, hhead, Option.bind_eq_bind,
        Option.bind_some, Option.bind_eq_some_iff, Option.pure_def, Option.some.injEq] at hout
      obtain ⟨close, hclose, rfl⟩ := hout
      exact ⟨close, getElem?_of_search_brace hhead, hclose, rfl⟩

end PutAtClassEnd

/-! ## Beginnings -/

/-- A scan that comes to a plain text meets all of it. -/
theorem Code.Reaches.exists_mem_of_isPlain {t w rest : Text} {i p : Nat} (h : Reaches t i p)
    (hdrop : t.drop p = w ++ rest) (hw : ∀ c ∈ w, IsPlain c) {n : Nat} (hn : n < w.length) :
    ∃ c, (p + n, c) ∈ scan t i := by
  obtain ⟨places, -, hscan⟩ := h
  have hsplit : w = w.take n ++ w[n] :: w.drop (n + 1) := by
    rw [← List.drop_eq_getElem_cons hn, List.take_append_drop]
  obtain ⟨hslash, hquote, hapostrophe⟩ := hw _ (List.getElem_mem hn)
  have hlead : Passes (w.take n) (w.take n) := .plain fun c hc => hw c (List.mem_of_mem_take hc)
  obtain ⟨others, -, -, hothers⟩ := hlead p (w[n] :: (w.drop (n + 1) ++ rest))
  rw [List.length_take_of_le (Nat.le_of_lt hn),
    scanFrom_code (literalLength_cons hslash hquote hapostrophe _)] at hothers
  have hrest : t.drop p = w.take n ++ w[n] :: (w.drop (n + 1) ++ rest) := by
    rw [hdrop, ← List.cons_append, ← List.append_assoc, ← hsplit]
  refine ⟨w[n], ?_⟩
  rw [hscan, scan, hrest, hothers]
  simp

/-- A block that completes nothing begins in code. -/
theorem Entry.HasInertLead.exists_lead {block : Text} (h : HasInertLead block) (indent : Text) :
    ∃ c more, IsPlain c ∧ allBehind indent block = indent ++ c :: more := by
  have hpos : 0 < (firstLine block).length := Nat.lt_of_lt_of_le (by decide) h.long
  obtain ⟨c, rest, hfirst⟩ := List.exists_cons_of_length_pos hpos
  obtain ⟨hslash, -, hquote⟩ := h.head c (by rw [hfirst]; rfl)
  have hapostrophe : c ≠ '\x27' := by
    rintro rfl
    exact h.noApostrophe (by simp [hfirst])
  have hlines : ∃ more, allBehind indent block = indent ++ firstLine block ++ more := by
    unfold allBehind
    rw [lines_eq_tail, List.map_cons]
    cases (splitOn '\n' block).tail with
    | nil => exact ⟨[], by simp [join]⟩
    | cons next others =>
        exact ⟨_, (join_cons (List.cons_ne_nil _ _)).trans (List.append_assoc _ _ _)⟩
  obtain ⟨more, hmore⟩ := hlines
  exact ⟨c, rest ++ more, ⟨hslash, hquote, hapostrophe⟩, by rw [hmore, hfirst]; simp⟩

section Inserted

variable {form : HookForm} (h : form ∈ HookForm.all) {indent : Text}
  (hindent : IsIndentation indent)

include h hindent

/-- A hook behind a line feed completes nothing that stands before it. -/
theorem inert_inserted (rest : Text) :
    Inert (['\n'] ++ allBehind indent form.hook ++ ['\n'] ++ rest) := by
  rw [← indented_eq_allBehind (HookForm.hasFullLines_hook h), List.append_assoc, List.append_assoc]
  exact inert_padding isPadding_nil.cons
    ((HookForm.isTame_of_mem_all h).lead.inert_indented hindent _)

/-- A scan that comes to the place of a hook meets the hook's beginning there. -/
theorem exists_mem_scan_inserted {t : Text} {i place : Nat} {d : Char}
    (hd : (place, d) ∈ scan t i) (hfeed : d ≠ '\n') {n : Nat} (hn : n ≤ indent.length + 1) :
    ∃ c, (place + n, c) ∈
      scan (t.take place ++ (['\n'] ++ allBehind indent form.hook ++ ['\n'] ++ t.drop place)) i := by
  obtain ⟨places, hplaces, -, hscan⟩ :=
    scan_take_append hd (fun heq => absurd heq hfeed) (inert_inserted h hindent (t.drop place))
  obtain ⟨c, more, hc, hlead⟩ := (HookForm.isTame_of_mem_all h).lead.exists_lead indent
  have hreached : Reaches (t.take place ++
      (['\n'] ++ allBehind indent form.hook ++ ['\n'] ++ t.drop place)) i place :=
    ⟨places, hplaces, hscan⟩
  have hplain : ∀ c' ∈ '\n' :: indent ++ [c], IsPlain c' := by
    rw [List.forall_mem_append, List.forall_mem_cons, List.forall_mem_singleton]
    exact ⟨⟨by decide, fun c' hc' => .of_isBlank (isBlank_of_isIndent c' (hindent c' hc'))⟩, hc⟩
  have hblock : ['\n'] ++ allBehind indent form.hook ++ ['\n'] ++ t.drop place =
      ('\n' :: indent ++ [c]) ++ (more ++ ['\n'] ++ t.drop place) := by
    rw [hlead]
    simp
  obtain ⟨hlt, -⟩ := List.getElem?_eq_some_iff.1 (getElem?_of_mem_scan hd)
  have hlength := List.length_take_of_le (Nat.le_of_lt hlt)
  exact hreached.exists_mem_of_isPlain ((List.drop_left' hlength).trans hblock) hplain
    (by simp; omega)

end Inserted

/-! ## Classes -/

namespace PutAtClassEnd

variable {t hook out : Text} {o : Nat}

/-- The hook is put in at one offset of the class, set off by line feeds. -/
theorem exists_place (h : PutAtClassEnd t hook o out) :
    ∃ close place indent, t[o]? = some '\x7b' ∧ matchingCloser t o = some close ∧
      IsIndentation indent ∧ o < place ∧ place ≤ close ∧
      (∃ d, (place, d) ∈ scan t o ∧ d ≠ '\n') ∧
      out = t.take place ++ (['\n'] ++ allBehind indent hook ++ ['\n'] ++ t.drop place) := by
  obtain ⟨form, hform, rfl⟩ := h.exists_form
  obtain ⟨close, hopener, hclose, hout⟩ := h.exists_close
  obtain ⟨_, closer, hopener', hkind, -, hcloser⟩ := matchingCloser_eq_some hclose
  obtain rfl := Option.some.inj (hopener.symm.trans hopener')
  obtain rfl : '\x7d' = closer := Option.some.inj hkind
  have hcode := (isLeast_of_matchingCloser hopener hkind hclose).1
  have hplace : o < memberPlace t close :=
    (lt_memberPlace_iff hopener (by decide)).2 hcode.behind
  have hmet := exists_mem_scan_of_blank hcode.isCode (by decide) (Nat.le_of_lt hplace)
    (memberPlace_le t close) fun c hc => isBlank_of_mem_slice_memberPlace hc
  refine ⟨close, memberPlace t close, _, hopener, hclose, .memberIndent t o close, hplace,
    memberPlace_le t close, hmet, ?_⟩
  rw [hout, placeBeforeCloser_eq, indented_eq_allBehind (HookForm.hasFullLines_hook hform),
    List.append_assoc]

end PutAtClassEnd

/-- A hook at the end of a class is put in between the braces, at a place of code, and the class
closes behind it. What closed before the hook closes at the same place. -/
theorem class_kept_around_hook {t hook out : Text} {o : Nat} (h : PutAtClassEnd t hook o out) :
    ∃ close place indent, t[o]? = some '\x7b' ∧ matchingCloser t o = some close ∧
      IsIndentation indent ∧ o < place ∧ place ≤ close ∧
      out = t.take place ++ (['\n'] ++ allBehind indent hook ++ ['\n']) ++ t.drop place ∧
      matchingCloser out o = some (close + (out.length - t.length)) ∧
      place + (['\n'] ++ allBehind indent hook ++ ['\n']).length ≤
        close + (out.length - t.length) ∧
      (∀ i d, (o, d) ∈ scan t i → ∀ n ≤ indent.length + 1, ∃ c, (place + n, c) ∈ scan out i) ∧
      ∀ k m, matchingCloser t k = some m → m < place → matchingCloser out k = some m := by
  obtain ⟨form, hform, rfl⟩ := h.exists_form
  obtain ⟨close, place, indent, hopener, hclose, hindent, hbefore, hle, ⟨d, hd, hfeed⟩, hout⟩ :=
    h.exists_place
  have hplace := getElem?_of_mem_scan hd
  have hinert := inert_inserted hform hindent (t.drop place)
  have hlength : out.length - t.length =
      (['\n'] ++ allBehind indent form.hook ++ ['\n']).length := by
    obtain ⟨hlt, -⟩ := List.getElem?_eq_some_iff.1 hplace
    rw [hout]
    simp only [List.length_append, List.length_take, List.length_drop]
    omega
  refine ⟨close, place, indent, hopener, hclose, hindent, hbefore, hle,
    by rw [hout, ← List.append_assoc (t.take place)], ?_, by omega, fun i e ho n hn => ?_,
    fun k m hm hlt => ?_⟩
  · have hencloses : Encloses t '\x7b' place o close := ⟨hopener, hbefore, ⟨d, hd⟩, hclose, hle⟩
    obtain ⟨code, hpasses, hbalanced⟩ := (HookForm.isTame_of_mem_all hform).block.exists_passes_setOff
      hindent isPadding_nil.cons isPadding_nil.cons
    rw [indented_eq_allBehind (HookForm.hasFullLines_hook hform)] at hpasses
    rw [hlength, hout]
    exact hencloses.matchingCloser_inserted rfl hpasses (hbalanced _ _ rfl) hinert hplace hfeed
  · -- What a scan from the brace on meets is met by every scan that has met the brace.
    obtain ⟨before, hbrace⟩ := scan_eq_append ho
    rw [hout]
    exact exists_mem_scan_inserted hform hindent (hbrace ▸ List.mem_append_right _ hd) hfeed hn
  · rw [hout]
    exact matchingCloser_take_append hm hlt hplace (fun heq => absurd heq hfeed) hinert

/-- A class whose closing brace stands behind a character literal on the line of the opening one. -/
def classOnOneLine : Text := "class MainApplication \x7b val a = '\x7d' \x7d".toList

theorem class_kept_around_hook_classOnOneLine :
    ∃ out place, PutAtClassEnd classOnOneLine hookInJava 22 out ∧ 22 < place ∧ place ≤ 36 ∧
      (∃ c, (place, c) ∈ scan out 22) ∧
      matchingCloser out 22 = some (36 + (out.length - classOnOneLine.length)) := by
  have hhead : MainApplication.classPattern.search classOnOneLine = some ⟨0, 23⟩ := by decide
  have hcloser : matchingCloser classOnOneLine 22 = some 36 := by decide
  obtain ⟨out, hout⟩ := Option.isSome_iff_exists.1
    (by decide : (MainApplication.placeAtClassEnd classOnOneLine hookInJava).isSome = true)
  have hput : PutAtClassEnd classOnOneLine hookInJava 22 out :=
    .application (by simp [memberHooks]) hhead hout
  obtain ⟨close, place, indent, -, hclose, -, hbefore, hle, -, hcloses, -, hcode, -⟩ :=
    class_kept_around_hook hput
  obtain rfl := Option.some.inj (hcloser.symm.trans hclose)
  exact ⟨out, place, hput, hbefore, hle, hcode 22 '\x7b' (by decide) 0 (Nat.zero_le _), hcloses⟩

end BundleHook
