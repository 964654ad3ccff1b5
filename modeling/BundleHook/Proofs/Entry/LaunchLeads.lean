import BundleHook.Proofs.Code.Comments
import BundleHook.Proofs.Code.Taking
import BundleHook.Proofs.Entry.ClassBody

/-!
# Annotations and modifiers of the launch method

A declaration is led by annotations and modifiers, with blanks and comments between them. The
pattern of a launch method takes some of them along; any other one that stands directly before it is
torn off when the hook is put in between.

* `Lead`, `Leads`, `Heads` — what leads a declaration;
* `not_leads_behind` — nothing leads what stands behind the brace of another declaration;
* `leads_of_launch_method` — the launch method keeps what leads it exactly when nothing does but
  what its pattern takes.
-/

namespace BundleHook

open Text Code Code.Pattern Entry Entry.MainApplication Entry.AppDelegate

namespace Code

/-! ## Leads -/

/-- A character of the name of an annotation. -/
def isNamePart (c : Char) : Bool := isWord c || c == '.'

/-- An annotation without its arguments. -/
def annotationName : Pattern := word "@" ++ (one isNamePart ++ many isNamePart)

/-- A modifier of the list, or an annotation with or without arguments, fills the part of the text
between two offsets. -/
inductive Lead (words : List Text) (t : Text) : (k e : Nat) → Prop where
  | modifier {k e : Nat} {w : Text} (code : ¬InLiteral t k) (known : w ∈ words)
      (alone : (edge ++ text w ++ edge).MatchesAt (withoutComments t) ⟨k, e⟩) : Lead words t k e
  | mark {k e : Nat} (code : ¬InLiteral t k)
      (name : annotationName.MatchesAt (withoutComments t) ⟨k, e⟩) : Lead words t k e
  | markCall {k o c : Nat} (code : ¬InLiteral t k)
      (name : annotationName.MatchesAt (withoutComments t) ⟨k, o⟩)
      (opens : (withoutComments t)[o]? = some '(')
      (closes : matchingCloser (withoutComments t) o = some c) : Lead words t k (c + 1)

/-- The lead stands before `s` with nothing but blanks and comments between. -/
structure Leads (words : List Text) (t : Text) (s k e : Nat) : Prop where
  lead : Lead words t k e
  before : e ≤ s
  apart : ∀ c ∈ slice (withoutComments t) e s, isBlank c = true

/-- All that leads what stands at `s`, one lead before the other. -/
inductive Heads (words : List Text) (t : Text) (s : Nat) : (k e : Nat) → Prop where
  | last {k e : Nat} (leads : Leads words t s k e) : Heads words t s k e
  | before {k e k' e' : Nat} (head : Heads words t s k e) (leads : Leads words t k k' e') :
      Heads words t s k' e'

theorem Heads.exists_leads {words : List Text} {t : Text} {s k e : Nat}
    (h : Heads words t s k e) : ∃ k' e', Leads words t s k' e' := by
  induction h with
  | last leads => exact ⟨_, _, leads⟩
  | before _ _ ih => exact ih

/-- What is blank in the text is blank without its comments. -/
theorem isBlank_slice_withoutComments {t : Text} {i j : Nat}
    (h : ∀ c ∈ slice t i j, isBlank c = true) :
    ∀ c ∈ slice (withoutComments t) i j, isBlank c = true := by
  intro d hd
  obtain ⟨n, hn⟩ := List.mem_iff_getElem?.1 hd
  rw [slice, List.getElem?_drop, List.getElem?_take] at hn
  split at hn
  · next hlt =>
    by_cases hin : InComment t (i + n)
    · exact isBlank_of_inComment hin hn
    · rw [getElem?_withoutComments_of_not_inComment hin] at hn
      exact h d (mem_slice_of_getElem? hn (Nat.le_add_right i n) hlt)
  · cases hn

/-- The characters that a lead may end with. -/
def EndsLead (c : Char) : Prop := isNamePart c = true ∨ c = ')'

theorem EndsLead.isBlank_eq_false {c : Char} (h : EndsLead c) : isBlank c = false := by
  refine Bool.eq_false_iff.2 fun hblank => ?_
  rcases h with h | rfl
  · rw [isNamePart, isWord_eq_false_of_isBlank hblank, Bool.false_or, beq_iff_eq] at h
    subst h
    revert hblank
    decide
  · revert hblank
    decide

section Leads

variable {words : List Text} {t : Text} {k e s : Nat}

theorem endsLead_of_annotationName (h : annotationName.MatchesAt t ⟨k, e⟩) :
    0 < e ∧ ∃ c, t[e - 1]? = some c ∧ EndsLead c := by
  obtain ⟨start, -, hname⟩ := matchesAt_both h
  obtain ⟨middle, hfirst, hmore⟩ := matchesAt_both hname
  have hkind : (one isNamePart ++ many isNamePart).TakesOnly (isNamePart · = true) :=
    ⟨fun _ => id, fun _ => id⟩
  obtain ⟨c, -, hslice⟩ := matchesAt_one hfirst
  have hlength := congrArg List.length hslice
  have hfits : middle ≤ t.length := hfirst.2.1
  simp only [slice, List.length_drop, List.length_take_of_le hfits, List.length_singleton] at hlength
  have hle : middle ≤ e := hmore.1
  have hlt : e - 1 < t.length := by
    have : e ≤ t.length := h.2.1
    omega
  refine ⟨by omega, t[e - 1], List.getElem?_eq_getElem hlt, .inl (hkind.mem_slice hname _ ?_)⟩
  exact mem_slice_of_getElem? (List.getElem?_eq_getElem hlt) (show start ≤ e - 1 by omega)
    (show e - 1 < e by omega)

variable (hwords : ∀ w ∈ words, w ≠ [] ∧ ∀ c ∈ w, isWord c = true)
include hwords

theorem Lead.last (h : Lead words t k e) :
    0 < e ∧ ∃ c, (withoutComments t)[e - 1]? = some c ∧ EndsLead c := by
  cases h with
  | @modifier _ w code known alone =>
      obtain ⟨hne, hword⟩ := hwords w known
      obtain ⟨stop, hfront, hedge⟩ := matchesAt_both alone
      obtain ⟨start, -, htext⟩ := matchesAt_both hfront
      obtain rfl : e = stop := (matchesAt_edge_iff.1 hedge).1
      obtain ⟨rfl, hchars⟩ : e = start + w.length ∧ _ := getElem?_of_matchesAt_text htext
      have hpos := List.length_pos_iff.2 hne
      refine ⟨by omega, w[w.length - 1], ?_, .inl ?_⟩
      · rw [Nat.add_sub_assoc hpos, hchars (w.length - 1) (by omega)]
        exact List.getElem?_eq_getElem _
      · rw [isNamePart, hword _ (List.getElem_mem _), Bool.true_or]
  | mark code name => exact endsLead_of_annotationName name
  | markCall code name opens closes =>
      obtain ⟨opener, closer, hopener, hkind, -, hcloser⟩ := matchingCloser_eq_some closes
      obtain rfl := Option.some.inj (opens.symm.trans hopener)
      obtain rfl : ')' = closer := Option.some.inj hkind
      exact ⟨Nat.succ_pos _, ')', hcloser, .inr rfl⟩

/-- Blanks on the way make no difference to what leads a place. -/
theorem leads_iff_of_blank {p : Nat} (hle : p ≤ s) (hs : s ≤ t.length)
    (hblank : ∀ c ∈ slice t p s, isBlank c = true) :
    Leads words t p k e ↔ Leads words t s k e := by
  have hblank' := isBlank_slice_withoutComments hblank
  constructor
  · rintro ⟨hlead, hbefore, hapart⟩
    refine ⟨hlead, Nat.le_trans hbefore hle, fun c hc => ?_⟩
    rw [← slice_append_slice hbefore hle (by simpa using Nat.le_trans hle hs)] at hc
    exact (List.mem_append.1 hc).elim (hapart c) (hblank' c)
  · rintro ⟨hlead, hbefore, hapart⟩
    obtain ⟨hpos, c, hc, hends⟩ := hlead.last hwords
    have hep : e ≤ p := by
      by_contra hlt
      have hin := hblank' c (mem_slice_of_getElem? hc (by omega) (by omega))
      rw [hends.isBlank_eq_false] at hin
      cases hin
    refine ⟨hlead, hep, fun c hc => hapart c ?_⟩
    rw [← slice_append_slice hep hle (by simpa using Nat.le_trans hle hs)]
    exact List.mem_append_left _ hc

/-- Nothing leads what stands behind a closing brace. -/
theorem not_leads_behind {p : Nat} (hp : (p, '\x7d') ∈ scan t 0) (hlt : p < s)
    (hblank : ∀ c ∈ slice t (p + 1) s, isBlank c = true) : ¬Leads words t s k e := by
  rintro ⟨hlead, hbefore, hapart⟩
  obtain ⟨hpos, c, hc, hends⟩ := hlead.last hwords
  have hbrace : (withoutComments t)[p]? = some '\x7d' := by
    rw [getElem?_withoutComments_of_not_inComment (not_inComment_of_mem_scan hp),
      getElem?_of_mem_scan hp]
  rcases Nat.lt_trichotomy (e - 1) p with hlast | rfl | hlast
  · have hin := hapart _ (mem_slice_of_getElem? hbrace (by omega) hlt)
    exact absurd hin (by decide)
  · obtain rfl := Option.some.inj (hc.symm.trans hbrace)
    exact absurd hends (by unfold EndsLead; decide)
  · have hin := isBlank_slice_withoutComments hblank _
      (mem_slice_of_getElem? hc (by omega) (by omega))
    rw [hends.isBlank_eq_false] at hin
    cases hin

end Leads

end Code

/-! ## Hooks before a launch method -/

theorem Text.slice_append_append (front middle back : Text) :
    slice (front ++ (middle ++ back)) front.length (front.length + middle.length) = middle := by
  rw [slice, ← List.append_assoc, List.take_left' List.length_append, List.drop_left]

/-- A block that ends with a brace on a line of its own passes as a lead and that brace. -/
theorem Entry.IsBalancedBlock.exists_passes_closed {block : Text} (h : IsBalancedBlock block)
    {init : List Text} (hne : init ≠ []) (hsplit : splitOn '\n' block = init ++ [['\x7d']])
    {indent : Text} (hindent : IsIndentation indent) :
    ∃ lead code, Passes lead code ∧ indented block indent = lead ++ ['\x7d'] := by
  have hlines : List.Forall₂ Delimits (init.map (indentLine indent))
      (init.map (·.filter isDelimiter)) := by
    rw [List.forall₂_map_left_iff, List.forall₂_map_right_iff, List.forall₂_same]
    intro line hline
    refine (h.lines line ?_).indentLine hindent
    rw [hsplit]
    exact List.mem_append_left _ hline
  have hfeed : Delimits ['\n'] [] := .plain (by decide)
  obtain ⟨code, hpasses, -⟩ := ((Delimits.join hlines).append hfeed).append (.indentation hindent)
  refine ⟨_, code, hpasses, ?_⟩
  rw [indented, hsplit, List.map_append, join_append (by simpa using hne) (by simp)]
  simp [join, indentLine]

namespace ClassForm

/-- The installers that put a hook before a launch method. -/
def allBeforeLaunch : List ClassForm :=
  all ++ [⟨⟨.swift, hookInSwift, swiftBundleMethod⟩, swiftLaunchMethod⟩]

/-- What these installers have in common. -/
structure PutsBefore (form : ClassForm) : Prop where
  hook : form.toHookForm.IsTame
  full : HasFullLines form.hook
  closed : ∃ init ≠ [], splitOn '\n' form.hook = init ++ [['\x7d']]
  install : ∀ t launch, firstDeclaration t form.signature = none →
    form.launch.search t = some launch →
      form.installer.install t = some (placeBefore t launch.start form.hook)
  opens : Opens BeginsMember form.launch

variable {form : ClassForm}

theorem putsBefore_of_mem (h : form ∈ allBeforeLaunch) : form.PutsBefore := by
  rcases List.mem_append.1 h with h | h
  · have htame := isTame_of_mem_all h
    refine ⟨htame.hook, htame.full, ?_, fun t launch hnone hlaunch => ?_, htame.opens⟩
    · simp only [all, List.mem_cons, List.not_mem_nil, or_false] at h
      rcases h with rfl | rfl
      · exact exists_closed_of_mem (by simp [hooks])
      · exact exists_closed_of_mem (by simp [hooks])
    · rw [htame.install, installInClass, hnone, hlaunch]
  · obtain rfl := List.mem_singleton.1 h
    have hmem : ⟨.swift, hookInSwift, swiftBundleMethod⟩ ∈ HookForm.all := by simp [HookForm.all]
    refine ⟨HookForm.isTame_of_mem_all hmem, HookForm.hasFullLines_hook hmem,
      exists_closed_of_mem (HookForm.hook_mem hmem), fun t launch hnone hlaunch => ?_,
      opens_swiftLaunchMethod opens_memberLeads⟩
    show installSwift t = _
    have hnone : firstDeclaration t swiftBundleMethod = none := hnone
    have hlaunch : swiftLaunchMethod.search t = some launch := hlaunch
    rw [installSwift, hnone, hlaunch]

/-- The hook ends with a brace in code, and nothing but blanks stands between that and the launch
method. -/
theorem exists_brace (h : form.PutsBefore) {t : Text} {launch : Span}
    (hlaunch : form.launch.search t = some launch) (hcode : ¬InLiteral t launch.start)
    {indent before behind : Text} (hindent : IsIndentation indent) (hbefore : IsPadding before)
    (hbehind : IsPadding behind) {out : Text}
    (hout : out = t.take (memberPlace t launch.start) ++
      (before ++ indented form.hook indent ++ behind) ++ t.drop (memberPlace t launch.start)) :
    ∃ p, (p, '\x7d') ∈ scan out 0 ∧
      p < launch.start + (before ++ indented form.hook indent ++ behind).length ∧
      ∀ c ∈ slice out (p + 1)
          (launch.start + (before ++ indented form.hook indent ++ behind).length),
        isBlank c = true := by
  obtain ⟨init, hne, hsplit⟩ := h.closed
  obtain ⟨lead, code, hpasses, hlead⟩ := h.hook.block.exists_passes_closed hne hsplit hindent
  -- the launch method is code, and so is the place that the hook is put in at
  obtain ⟨d, hd, hhead⟩ := h.opens.of_matchesAt (matchesAt_of_search hlaunch)
  rw [List.head?_drop] at hhead
  obtain ⟨d', hd'⟩ := isCode_iff.2 ⟨(List.getElem?_eq_some_iff.1 hhead).1, hcode⟩
  obtain rfl := Option.some.inj ((getElem?_of_mem_scan hd').symm.trans hhead)
  have hfeed : d' ≠ '\n' := by
    rintro rfl
    exact absurd hd (by decide)
  have hle := memberPlace_le t launch.start
  have hblank : ∀ c ∈ slice t (memberPlace t launch.start) launch.start, isBlank c = true :=
    fun c hc => (isBlank_of_mem_slice_memberPlace hc).1
  obtain ⟨e, he, hfeed'⟩ := exists_mem_scan_of_blank hd' hfeed (Nat.zero_le _) hle
    fun c hc => isBlank_of_mem_slice_memberPlace hc
  have hstart : launch.start ≤ t.length := Nat.le_of_lt (List.getElem?_eq_some_iff.1 hhead).1
  have hlength : memberPlace t launch.start ≤ t.length := Nat.le_trans hle hstart
  generalize memberPlace t launch.start = place at *
  have hinert : Inert (before ++ indented form.hook indent ++ behind ++ t.drop place) := by
    rw [List.append_assoc, List.append_assoc]
    exact inert_padding hbefore (h.hook.lead.inert_indented hindent _)
  obtain ⟨places, -, -, hscan⟩ := scan_take_append he (fun heq => absurd heq hfeed') hinert
  obtain ⟨others, -, -, hothers⟩ := (hbefore.passes.append hpasses) place
    ('\x7d' :: (behind ++ t.drop place))
  rw [List.append_assoc] at hout
  have hm : before ++ indented form.hook indent ++ behind ++ t.drop place =
      before ++ lead ++ '\x7d' :: (behind ++ t.drop place) := by
    simp [hlead]
  refine ⟨place + (before ++ lead).length, ?_, ?_, ?_⟩
  · rw [hout, hscan, scan, List.drop_left' (List.length_take_of_le hlength), hm, hothers,
      scanFrom_code (literalLength_cons (by decide) (by decide) (by decide) _)]
    simp
  · rw [hlead]
    simp only [List.length_append, List.length_singleton]
    omega
  · have hparts : out = (t.take place ++ (before ++ lead ++ ['\x7d'])) ++
        ((behind ++ slice t place launch.start) ++ t.drop launch.start) := by
      rw [hout, hm, ← slice_append_drop hle]
      simp
    have hfront : (t.take place ++ (before ++ lead ++ ['\x7d'])).length =
        place + (before ++ lead).length + 1 := by
      simp [List.length_take_of_le hlength]
      omega
    have hstop : launch.start + (before ++ indented form.hook indent ++ behind).length =
        place + (before ++ lead).length + 1 + (behind ++ slice t place launch.start).length := by
      rw [hlead]
      simp only [slice, List.length_append, List.length_singleton, List.length_drop,
        List.length_take_of_le hstart]
      omega
    rw [hstop, ← hfront, hparts, slice_append_append]
    intro c hc
    exact (List.mem_append.1 hc).elim (hbehind.isBlank c) (hblank c)

end ClassForm

/-- A hook that is put before the launch method stands behind whatever leads that: what leads the
place leads the method, and the method keeps all of it exactly when that is nothing. -/
theorem leads_of_launch_method {form : ClassForm} (hform : form ∈ ClassForm.allBeforeLaunch)
    {t : Text} (hchanged : form.installer.apply t ≠ t) {imported : Text}
    (himported : imported = ensureImports form.installer.style t form.installer.imports)
    (hnone : firstDeclaration imported form.signature = none) {launch : Span}
    (hlaunch : form.launch.search imported = some launch)
    (hcode : ¬InLiteral imported launch.start) {words : List Text}
    (hwords : ∀ w ∈ words, w ≠ [] ∧ ∀ c ∈ w, isWord c = true) :
    ∃ place inserted indent before behind, place ≤ launch.start ∧
      (∀ c ∈ slice imported place launch.start, isBlank c = true) ∧ IsIndentation indent ∧
      IsPadding before ∧ IsPadding behind ∧
      inserted = before ++ allBehind indent form.hook ++ behind ∧
      form.installer.apply t = imported.take place ++ inserted ++ imported.drop place ∧
      (form.installer.apply t).drop (launch.start + inserted.length) =
        imported.drop launch.start ∧
      (∀ k e, Leads words imported place k e ↔ Leads words imported launch.start k e) ∧
      ((∀ k e, Heads words imported launch.start k e →
          ∃ k' e', Heads words (form.installer.apply t) (launch.start + inserted.length) k' e' ∧
            slice (form.installer.apply t) k' e' = slice imported k e) ↔
        ∀ k e, ¬Leads words imported launch.start k e) := by
  have hputs := ClassForm.putsBefore_of_mem hform
  have hout := Installer.install_of_apply_ne hchanged
  rw [← himported, hputs.install _ _ hnone hlaunch] at hout
  have hplaced := (Option.some.inj hout).symm
  obtain ⟨before, behind, hbefore, hbehind, hplace⟩ :=
    exists_placeBefore imported launch.start form.hook
  rw [hplace] at hplaced
  obtain ⟨p, hp, hlt, hblank⟩ := ClassForm.exists_brace hputs hlaunch hcode
    (.indentOfLine imported launch.start) hbefore hbehind hplaced
  have hfits : launch.start ≤ imported.length := by
    have hmatches := matchesAt_of_search hlaunch
    exact Nat.le_trans hmatches.1 hmatches.2.1
  have hblankPlace : ∀ c ∈ slice imported (memberPlace imported launch.start) launch.start,
      isBlank c = true := fun c hc => (isBlank_of_mem_slice_memberPlace hc).1
  rw [indented_eq_allBehind hputs.full] at hplaced hlt hblank
  refine ⟨_, _, _, before, behind, memberPlace_le _ _, hblankPlace,
    .indentOfLine imported launch.start, hbefore, hbehind, rfl, hplaced, ?_,
    fun k e => leads_iff_of_blank hwords (memberPlace_le _ _) hfits hblankPlace, ?_⟩
  · have hle := memberPlace_le imported launch.start
    rw [hplaced, ← slice_append_drop hle, ← List.append_assoc]
    refine List.drop_left' ?_
    simp only [slice, List.length_append, List.length_drop, List.length_take_of_le hfits,
      List.length_take_of_le (Nat.le_trans hle hfits)]
    omega
  constructor
  · intro hkept k e hleads
    obtain ⟨k', e', hheads, -⟩ := hkept k e (.last hleads)
    obtain ⟨k', e', hleads'⟩ := hheads.exists_leads
    exact not_leads_behind hwords hp hlt hblank hleads'
  · intro hno k e hheads
    obtain ⟨k', e', hleads⟩ := hheads.exists_leads
    exact absurd hleads (hno k' e')

/-- An application class whose launch method is led by a modifier that its pattern takes. -/
def publicLaunch : Text := block
  ["import com.stallion.Stallion", "class MainApplication : Application() \x7b",
    "  public override fun onCreate() \x7b", "  \x7d", "\x7d", ""]

theorem leads_of_launch_method_publicLaunch :
    kotlinLaunchMethod.search publicLaunch = some ⟨71, 100⟩ ∧
      ∃ place inserted, place ≤ 71 ∧
        Installer.kotlin.apply publicLaunch =
          publicLaunch.take place ++ inserted ++ publicLaunch.drop place ∧
        ((∀ k e, Heads ["final".toList] publicLaunch 71 k e →
            ∃ k' e', Heads ["final".toList] (Installer.kotlin.apply publicLaunch)
                (71 + inserted.length) k' e' ∧
              slice (Installer.kotlin.apply publicLaunch) k' e' = slice publicLaunch k e) ↔
          ∀ k e, ¬Leads ["final".toList] publicLaunch 71 k e) := by
  have hfacts : Installer.kotlin.apply publicLaunch ≠ publicLaunch ∧
      publicLaunch = ensureImports .line publicLaunch importsInKotlin ∧
      firstDeclaration publicLaunch kotlinBundleMethod = none ∧
      kotlinLaunchMethod.search publicLaunch = some ⟨71, 100⟩ ∧ ¬InLiteral publicLaunch 71 := by
    decide
  obtain ⟨hchanged, himported, hnone, hlaunch, hcode⟩ := hfacts
  obtain ⟨place, inserted, -, -, -, hle, -, -, -, -, -, hout, -, -, hheads⟩ :=
    @leads_of_launch_method ⟨⟨.kotlin, hookInKotlin, kotlinBundleMethod⟩, kotlinLaunchMethod⟩
      (.head _) _ hchanged _ himported hnone _ hlaunch hcode ["final".toList] (by decide)
  exact ⟨hlaunch, place, inserted, hle, hout, hheads⟩

/-- An application class whose launch method has an annotation on a line of its own. -/
def annotatedLaunch : Text := block
  ["import com.stallion.Stallion", "class MainApplication : Application() \x7b", "  @CallSuper",
    "  override fun onCreate() \x7b", "  \x7d", "\x7d", ""]

/-- The hook is put between the annotation and the launch method. -/
theorem annotation_torn_off :
    firstDeclaration annotatedLaunch kotlinBundleMethod = none ∧
      kotlinLaunchMethod.search annotatedLaunch = some ⟨84, 106⟩ ∧ ¬InLiteral annotatedLaunch 84 ∧
      Installer.kotlin.apply annotatedLaunch = annotatedLaunch.take 82 ++
        (allBehind "  ".toList hookInKotlin ++ "\n\n".toList) ++ annotatedLaunch.drop 82 ∧
      slice annotatedLaunch 71 81 = "@CallSuper".toList ∧ Leads [] annotatedLaunch 82 71 81 := by
  have hfacts : firstDeclaration annotatedLaunch kotlinBundleMethod = none ∧
      kotlinLaunchMethod.search annotatedLaunch = some ⟨84, 106⟩ ∧ ¬InLiteral annotatedLaunch 84 ∧
      Installer.kotlin.apply annotatedLaunch = annotatedLaunch.take 82 ++
        (allBehind "  ".toList hookInKotlin ++ "\n\n".toList) ++ annotatedLaunch.drop 82 ∧
      slice annotatedLaunch 71 81 = "@CallSuper".toList ∧ ¬InLiteral annotatedLaunch 71 ∧
      annotationName.search (withoutComments annotatedLaunch) = some ⟨71, 81⟩ ∧
      ∀ c ∈ slice (withoutComments annotatedLaunch) 81 82, isBlank c = true := by
    decide +kernel
  obtain ⟨hnone, hlaunch, hcode, hout, hslice, hfree, hname, hblank⟩ := hfacts
  exact ⟨hnone, hlaunch, hcode, hout, hslice,
    ⟨.mark hfree (matchesAt_of_search hname), by decide, hblank⟩⟩

end BundleHook
