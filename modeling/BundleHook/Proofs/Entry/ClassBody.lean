import BundleHook.Proofs.Code.LiteralEnd
import BundleHook.Proofs.Entry.HookNesting

/-!
# Hooks in classes

A hook that takes no declaration's place goes before the first launch method of the file, or before
the brace that closes the application class when the file has no launch method. So it becomes a
member of the application class exactly when the first launch method of the file stands in it.

* `memberPlace` — the offset that a block is put in at;
* `ClassForm` — the installers that put a hook into a class;
* `hook_in_class` — where they put it.
-/

namespace BundleHook

open Text Code Code.Pattern Entry Entry.MainApplication

/-! ## Places of members -/

namespace Code

/-- Where a block goes that is put before `index`: at the start of the line when nothing but blanks
stands before `index` on it. -/
def memberPlace (t : Text) (index : Nat) : Nat :=
  if opensLine t index then startOfLine t index else index

theorem memberPlace_le (t : Text) (index : Nat) : memberPlace t index ≤ index := by
  unfold memberPlace
  split
  · exact startOfLine_le t index
  · exact Nat.le_refl index

/-- Nothing but blanks on the line stands between. -/
theorem isBlank_of_mem_slice_memberPlace {t : Text} {index : Nat} {c : Char}
    (hc : c ∈ slice t (memberPlace t index) index) : isBlank c = true ∧ c ≠ '\n' := by
  unfold memberPlace at hc
  split at hc
  · next hopens =>
    refine ⟨List.all_eq_true.1 hopens c hc, ?_⟩
    rintro rfl
    exact not_mem_slice_startOfLine t index hc
  · rw [slice, List.drop_eq_nil_of_le (List.length_take_le index t)] at hc
    cases hc

/-- What is not blank stands before the place exactly when it stands before the member. -/
theorem lt_memberPlace_iff {t : Text} {index o : Nat} {c : Char} (hc : t[o]? = some c)
    (hblank : isBlank c = false) : o < memberPlace t index ↔ o < index := by
  refine ⟨fun hlt => Nat.lt_of_lt_of_le hlt (memberPlace_le t index), fun hlt => ?_⟩
  refine Nat.lt_of_not_le fun hle => ?_
  rw [(isBlank_of_mem_slice_memberPlace (mem_slice_of_getElem? hc hle hlt)).1] at hblank
  cases hblank

theorem exists_placeBefore (t : Text) (index : Nat) (block : Text) :
    ∃ before behind, IsPadding before ∧ IsPadding behind ∧
      placeBefore t index block = t.take (memberPlace t index) ++
        (before ++ indented block (indentOfLine t index) ++ behind) ++
          t.drop (memberPlace t index) := by
  have hindent := IsPadding.of_isIndentation (.indentOfLine t index)
  unfold placeBefore memberPlace
  split
  · exact ⟨[], ['\n', '\n'], isPadding_nil, isPadding_nil.cons.cons, by simp⟩
  · exact ⟨['\n'], '\n' :: indentOfLine t index, isPadding_nil.cons, hindent.cons, by simp⟩

theorem placeBeforeCloser_eq (t : Text) (close : Nat) (block indent : Text) :
    placeBeforeCloser t close block indent = t.take (memberPlace t close) ++
      (['\n'] ++ indented block indent ++ ['\n']) ++ t.drop (memberPlace t close) := by
  simp [placeBeforeCloser, memberPlace]

end Code

/-! ## Blocks that are set off -/

theorem Entry.isDelimiter_of_isPadding {t : Text} (h : IsPadding t) {c : Char} (hc : c ∈ t) :
    isDelimiter c = false := by
  have hpadding := h c hc
  simp only [isIndent, Bool.or_eq_true, beq_iff_eq] at hpadding
  rcases hpadding with rfl | rfl | rfl <;> decide

theorem Code.IsPadding.isBlank {t : Text} (h : IsPadding t) : ∀ c ∈ t, isBlank c = true := by
  intro c hc
  rcases h c hc with rfl | hc
  · decide
  · exact isBlank_of_isIndent c hc

theorem Code.IsPadding.passes {t : Text} (h : IsPadding t) : Passes t t :=
  .plain fun c hc => .of_isBlank (h.isBlank c hc)

/-- Padding around a balanced block leaves it balanced. -/
theorem Entry.IsBalancedBlock.exists_passes_setOff {block : Text} (h : IsBalancedBlock block)
    {indent before behind : Text} (hindent : IsIndentation indent) (hbefore : IsPadding before)
    (hbehind : IsPadding behind) :
    ∃ code, Passes (before ++ indented block indent ++ behind) code ∧
      ∀ opener closer, closerOf opener = some closer → Balanced opener closer code := by
  obtain ⟨code, hpasses, hbalanced⟩ := h.exists_passes_indented hindent
  refine ⟨_, (hbefore.passes.append hpasses).append hbehind.passes, ?_⟩
  intro opener closer hkind
  have hne := ne_of_closerOf hkind
  obtain ⟨hopener, hcloser⟩ := isDelimiter_of_closerOf hkind
  have hnone {t : Text} (h : IsPadding t) : ∀ c ∈ t, c ≠ opener ∧ c ≠ closer := by
    intro c hc
    have hc := isDelimiter_of_isPadding h hc
    constructor
    · rintro rfl; rw [hopener] at hc; cases hc
    · rintro rfl; rw [hcloser] at hc; cases hc
  rw [balanced_iff hne, openAfter_append, openAfter_append, openAfter_of_not_mem (hnone hbefore),
    Option.bind_some, (balanced_iff hne).1 (hbalanced opener closer hkind), Option.bind_some,
    openAfter_of_not_mem (hnone hbehind)]

/-! ## Installers -/

/-- An installer that puts a hook into the application class, with the launch method that the hook
is put before. -/
structure ClassForm extends HookForm where
  launch : Pattern

namespace ClassForm

def all : List ClassForm :=
  [⟨⟨.kotlin, hookInKotlin, kotlinBundleMethod⟩, kotlinLaunchMethod⟩,
   ⟨⟨.java, hookInJava, javaBundleMethod⟩, javaLaunchMethod⟩]

variable {form : ClassForm}

/-- Where the hook is put before: the first launch method, else the end of the class. -/
def anchor (form : ClassForm) (t : Text) (close : Nat) : Nat :=
  ((form.launch.search t).map Span.start).getD close

/-- What the two installers have in common. -/
structure IsTame (form : ClassForm) : Prop where
  hook : form.toHookForm.IsTame
  full : HasFullLines form.hook
  install : form.installer.install = installInClass form.hook form.signature form.launch
  opens : Opens BeginsMember form.launch

theorem isTame_of_mem_all (h : form ∈ all) : form.IsTame := by
  simp only [all, List.mem_cons, List.not_mem_nil, or_false] at h
  rcases h with rfl | rfl
  · have hmem : ⟨.kotlin, hookInKotlin, kotlinBundleMethod⟩ ∈ HookForm.all := .tail _ (.head _)
    exact ⟨HookForm.isTame_of_mem_all hmem, HookForm.hasFullLines_hook hmem, rfl,
      opens_kotlinLaunchMethod opens_memberLeads⟩
  · have hmem : ⟨.java, hookInJava, javaBundleMethod⟩ ∈ HookForm.all :=
      .tail _ (.tail _ (.head _))
    exact ⟨HookForm.isTame_of_mem_all hmem, HookForm.hasFullLines_hook hmem, rfl,
      opens_javaLaunchMethod opens_memberLeads⟩

/-- A launch method begins with a letter, a mark of an annotation or a sign. -/
theorem exists_lead (h : form.IsTame) {t : Text} {launch : Span}
    (hlaunch : form.launch.search t = some launch) :
    ∃ d ∈ memberLeads, t[launch.start]? = some d := by
  obtain ⟨d, hd, hhead⟩ := h.opens.of_matchesAt (matchesAt_of_search hlaunch)
  exact ⟨d, hd, by rw [← List.head?_drop, hhead]⟩

/-- Without a declaration to replace the hook is put in at one place, set off by padding. -/
theorem exists_insertion (h : form.IsTame) {t out : Text} {head : Span} {close : Nat}
    (hnone : firstDeclaration t form.signature = none) (hhead : classPattern.search t = some head)
    (hclose : matchingCloser t (head.stop - 1) = some close)
    (hout : form.installer.install t = some out) :
    ∃ indent before behind, IsIndentation indent ∧ IsPadding before ∧ IsPadding behind ∧
      out = t.take (memberPlace t (form.anchor t close)) ++
        (before ++ indented form.hook indent ++ behind) ++
          t.drop (memberPlace t (form.anchor t close)) := by
  rw [h.install, installInClass, hnone] at hout
  unfold anchor
  cases hlaunch : form.launch.search t with
  | some launch =>
      rw [hlaunch] at hout
      obtain rfl := Option.some.inj hout
      obtain ⟨before, behind, hbefore, hbehind, hplace⟩ :=
        exists_placeBefore t launch.start form.hook
      exact ⟨_, before, behind, .indentOfLine t launch.start, hbefore, hbehind, hplace⟩
  | none =>
      simp only [hlaunch, placeAtClassEnd, hhead, hclose, Option.bind_eq_bind, Option.bind_some,
        Option.pure_def, Option.some.injEq] at hout
      exact ⟨_, ['\n'], ['\n'], .memberIndent t (head.stop - 1) close, isPadding_nil.cons,
        isPadding_nil.cons, hout.symm.trans (placeBeforeCloser_eq t close form.hook _)⟩

/-- The anchor stands in the class exactly when the first launch method does. -/
theorem anchor_inside_iff (h : form.IsTame) {t : Text} {o close : Nat}
    (hclose : matchingCloser t o = some close) :
    o < memberPlace t (form.anchor t close) ∧ memberPlace t (form.anchor t close) ≤ close ↔
      ∀ launch, form.launch.search t = some launch → o < launch.start ∧ launch.start < close := by
  obtain ⟨opener, closer, hopener, hkind, hle, hcloser⟩ := matchingCloser_eq_some hclose
  obtain ⟨hopenerMark, hcloserMark⟩ := isDelimiter_of_closerOf hkind
  have hblank {c : Char} (h : isDelimiter c = true) : isBlank c = false := by
    simp only [isDelimiter, List.contains_iff_mem] at h
    exact (by decide : ∀ c ∈ "\x7b\x7d()[]".toList, isBlank c = false) c h
  rw [← Nat.not_lt, lt_memberPlace_iff hopener (hblank hopenerMark),
    lt_memberPlace_iff hcloser (hblank hcloserMark), Nat.not_lt, anchor]
  cases hlaunch : form.launch.search t with
  | none =>
      have hlt : o ≠ close := by
        rintro rfl
        exact ne_of_closerOf hkind (Option.some.inj (hopener.symm.trans hcloser))
      simp only [Option.map_none, Option.getD_none, Nat.le_refl, and_true, reduceCtorEq,
        false_implies, implies_true, iff_true]
      omega
  | some launch =>
      obtain ⟨d, hd, hlead⟩ := exists_lead h hlaunch
      have hne : launch.start ≠ close := by
        rintro rfl
        obtain rfl := Option.some.inj (hlead.symm.trans hcloser)
        exact absurd hcloserMark
          ((by decide : ∀ c ∈ memberLeads, ¬isDelimiter c = true) _ hd)
      simp only [Option.map_some, Option.getD_some, Option.some.injEq, forall_eq']
      omega

/-- The class closes behind a hook that is put in at a place of its code. -/
theorem matchingCloser_out (h : form.IsTame) {t : Text} {o close : Nat}
    (hclose : matchingCloser t o = some close)
    (hlaunch : ∀ launch, form.launch.search t = some launch →
      launch.start < close ∧ ∃ d, (launch.start, d) ∈ scan t o)
    {indent before behind : Text} (hindent : IsIndentation indent) (hbefore : IsPadding before)
    (hbehind : IsPadding behind) :
    matchingCloser (t.take (memberPlace t (form.anchor t close)) ++
        (before ++ indented form.hook indent ++ behind) ++
          t.drop (memberPlace t (form.anchor t close))) o =
      some (close + (before ++ indented form.hook indent ++ behind).length) := by
  obtain ⟨opener, closer, hopener, hkind, -, hcloser⟩ := matchingCloser_eq_some hclose
  -- The anchor is a place of code, and so is the place that the hook is put in at.
  have hanchor : ∃ d, (form.anchor t close, d) ∈ scan t o ∧ d ≠ '\n' := by
    unfold anchor
    cases hsearch : form.launch.search t with
    | none =>
        have hcode := (isLeast_of_matchingCloser hopener hkind hclose).1.isCode
        refine ⟨closer, hcode, ?_⟩
        rintro rfl
        exact absurd (isDelimiter_of_closerOf hkind).2 (by decide)
    | some launch =>
        obtain ⟨-, d, hcode⟩ := hlaunch launch hsearch
        obtain ⟨d', hd', hlead⟩ := exists_lead h hsearch
        obtain rfl := Option.some.inj (hlead.symm.trans (getElem?_of_mem_scan hcode))
        refine ⟨_, hcode, ?_⟩
        rintro rfl
        exact absurd hd' (by decide)
  obtain ⟨hlt, hle⟩ := (anchor_inside_iff h hclose).2 fun launch hsearch => by
    obtain ⟨hbefore, d, hcode⟩ := hlaunch launch hsearch
    obtain ⟨d', hd', hlead⟩ := exists_lead h hsearch
    refine ⟨Nat.lt_of_le_of_ne (le_of_mem_scan hcode) ?_, hbefore⟩
    rintro rfl
    obtain rfl := Option.some.inj (hlead.symm.trans hopener)
    exact absurd (isDelimiter_of_closerOf hkind).1
      ((by decide : ∀ c ∈ memberLeads, ¬isDelimiter c = true) _ hd')
  obtain ⟨d, hcode, hfeed⟩ := hanchor
  obtain ⟨e, he, hfeed'⟩ := exists_mem_scan_of_blank hcode hfeed (Nat.le_of_lt hlt)
    (memberPlace_le t _) fun c hc => isBlank_of_mem_slice_memberPlace hc
  have hencloses : Encloses t opener (memberPlace t (form.anchor t close)) o close :=
    ⟨hopener, hlt, ⟨e, he⟩, hclose, hle⟩
  obtain ⟨code, hpasses, hbalanced⟩ := h.hook.block.exists_passes_setOff hindent hbefore hbehind
  rw [List.append_assoc]
  refine hencloses.matchingCloser_inserted hkind hpasses (hbalanced opener closer hkind) ?_
    (getElem?_of_mem_scan he) hfeed'
  rw [List.append_assoc, List.append_assoc]
  exact inert_padding hbefore (h.hook.lead.inert_indented hindent _)

end ClassForm

/-- A hook that takes no declaration's place is put in at one offset. That lies between the braces
of the application class exactly when the first launch method of the file does, if there is one; and
when that is code of the class, then the class closes behind the hook. -/
theorem hook_in_class {form : ClassForm} (hform : form ∈ ClassForm.all) {t : Text}
    (hchanged : form.installer.apply t ≠ t) {imported : Text}
    (himported : imported = ensureImports form.installer.style t form.installer.imports)
    (hnone : firstDeclaration imported form.signature = none) {head : Span}
    (hhead : classPattern.search imported = some head) {close : Nat}
    (hclose : matchingCloser imported (head.stop - 1) = some close) :
    ∃ place indent before behind, place ≤ imported.length ∧ IsIndentation indent ∧
      IsPadding before ∧ IsPadding behind ∧
      form.installer.apply t = imported.take place ++
        (before ++ allBehind indent form.hook ++ behind) ++ imported.drop place ∧
      (head.stop - 1 < place ∧ place ≤ close ↔
        ∀ launch, form.launch.search imported = some launch →
          head.stop - 1 < launch.start ∧ launch.start < close) ∧
      ((∀ launch, form.launch.search imported = some launch →
          launch.start < close ∧ ∃ d, (launch.start, d) ∈ scan imported (head.stop - 1)) →
        matchingCloser (form.installer.apply t) (head.stop - 1) =
          some (close + (before ++ allBehind indent form.hook ++ behind).length)) := by
  have htame := ClassForm.isTame_of_mem_all hform
  have hout := Installer.install_of_apply_ne hchanged
  rw [← himported] at hout
  obtain ⟨indent, before, behind, hindent, hbefore, hbehind, hinsertion⟩ :=
    ClassForm.exists_insertion htame hnone hhead hclose hout
  have hlength : memberPlace imported (form.anchor imported close) ≤ imported.length := by
    refine Nat.le_trans (memberPlace_le _ _) ?_
    unfold ClassForm.anchor
    cases hlaunch : form.launch.search imported with
    | none => exact Nat.le_of_lt (lt_length_of_matchingCloser hclose)
    | some launch =>
        have hmatches := matchesAt_of_search hlaunch
        exact Nat.le_trans hmatches.1 hmatches.2.1
  have hrendered := indented_eq_allBehind htame.full indent
  refine ⟨_, indent, before, behind, hlength, hindent, hbefore, hbehind, hrendered ▸ hinsertion,
    ClassForm.anchor_inside_iff htame hclose, fun hlaunch => ?_⟩
  rw [hinsertion, ← hrendered]
  exact ClassForm.matchingCloser_out htame hclose hlaunch hindent hbefore hbehind

/-- An application class with its import and with a launch method. -/
def classWithLaunch : Text :=
  ("import com.stallion.Stallion\n" ++
    "class MainApplication : Application() \x7b\n" ++
    "  override fun onCreate() \x7b\x7d\n" ++
    "\x7d\n").toList

theorem hook_in_class_classWithLaunch :
    ∃ place indent before behind, 67 < place ∧ place ≤ 98 ∧
      Installer.kotlin.apply classWithLaunch = classWithLaunch.take place ++
        (before ++ allBehind indent hookInKotlin ++ behind) ++ classWithLaunch.drop place ∧
      matchingCloser (Installer.kotlin.apply classWithLaunch) 67 =
        some (98 + (before ++ allBehind indent hookInKotlin ++ behind).length) := by
  have hsearch : kotlinLaunchMethod.search classWithLaunch = some ⟨71, 93⟩ := by decide
  have hcode : (71, 'o') ∈ scan classWithLaunch 67 := by decide
  have himported :
      classWithLaunch = ensureImports .line classWithLaunch importsInKotlin := by decide
  have hhead : classPattern.search classWithLaunch = some ⟨29, 68⟩ := by decide
  obtain ⟨place, indent, before, behind, -, -, -, -, hout, hplace, hcloses⟩ :=
    @hook_in_class ⟨⟨.kotlin, hookInKotlin, kotlinBundleMethod⟩, kotlinLaunchMethod⟩ (.head _) _
      (by decide) _ himported (by decide) _ hhead 98 (by decide)
  obtain ⟨hlt, hle⟩ := hplace.2 fun launch hlaunch => by
    obtain rfl := Option.some.inj (hsearch.symm.trans hlaunch)
    decide
  refine ⟨place, indent, before, behind, hlt, hle, hout, hcloses fun launch hlaunch => ?_⟩
  obtain rfl := Option.some.inj (hsearch.symm.trans hlaunch)
  exact ⟨by decide, 'o', hcode⟩

/-- A class with a launch method, and the application class behind it. -/
def classBehindOther : Text :=
  ("class Other \x7b\n" ++
    "  override fun onCreate() \x7b\x7d\n" ++
    "\x7d\n" ++
    "class MainApplication : Application() \x7b\n" ++
    "\x7d\n").toList

/-- The hook goes into the other class. -/
theorem hook_in_other_class :
    firstDeclaration classBehindOther kotlinBundleMethod = none ∧
    (∃ head d, classPattern.search classBehindOther = some head ∧
      (head.start, d) ∈ scan classBehindOther 0 ∧
      (matchingCloser classBehindOther (head.stop - 1)).isSome = true) ∧
    Installer.kotlin.apply classBehindOther ≠ classBehindOther ∧
    ∃ head close, classPattern.search (Installer.kotlin.apply classBehindOther) = some head ∧
      matchingCloser (Installer.kotlin.apply classBehindOther) (head.stop - 1) = some close ∧
      has "getJSBundleFile".toList
        (slice (Installer.kotlin.apply classBehindOther) head.stop close) = false := by
  refine ⟨by decide, ⟨⟨45, 84⟩, 'c', by decide, by decide,
    by decide +kernel⟩, by decide +kernel, ⟨240, 279⟩, 280, by decide +kernel, by decide +kernel,
    by decide⟩

end BundleHook
