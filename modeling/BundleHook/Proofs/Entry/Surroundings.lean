import BundleHook.Proofs.Code.Extent
import BundleHook.Proofs.Entry.ImportLines
import BundleHook.Proofs.Entry.Settling

/-!
# What surrounds a hook

A patched file is the file with whole import lines added at starts of lines, and with the hook put
in: in the place of the first declaration of its shape, or else at one offset, set off by nothing
but line feeds, spaces and tabs. No other character is lost, doubled or moved.

* `ImportsAdded` — what adding the missing imports does to a text;
* `InsertsBlock` — what putting in a block does to a text;
* `surroundings_kept` — the installers that put in a block.
-/

namespace BundleHook

open Text Code Code.Pattern Entry

/-! ## Blocks -/

namespace Code

/-- Every line of a block behind `indent`. -/
def allBehind (indent block : Text) : Text :=
  join ['\n'] ((splitOn '\n' block).map (indent ++ ·))

/-- Every line of a block but its first one behind `indent`. -/
def laterBehind (indent block : Text) : Text :=
  join ['\n']
    ((splitOn '\n' block).take 1 ++ ((splitOn '\n' block).drop 1).map (indent ++ ·))

/-- No line of the block is empty. -/
def HasFullLines (block : Text) : Prop := ∀ line ∈ splitOn '\n' block, line ≠ []

/-- What sets a block off: line feeds, spaces and tabs. -/
def IsPadding (t : Text) : Prop := ∀ c ∈ t, c = '\n' ∨ isIndent c = true

/-- The text with a block put in at one place, its lines behind one indentation, and with nothing
but padding around it. -/
def InsertsBlock (block t out : Text) : Prop :=
  ∃ place indent before behind, place ≤ t.length ∧ IsIndentation indent ∧ IsPadding before ∧
    IsPadding behind ∧
    out = t.take place ++ (before ++ allBehind indent block ++ behind) ++ t.drop place

theorem IsPadding.of_isIndentation {t : Text} (h : IsIndentation t) : IsPadding t :=
  fun c hc => .inr (h c hc)

theorem IsPadding.cons {t : Text} (h : IsPadding t) : IsPadding ('\n' :: t) :=
  List.forall_mem_cons.2 ⟨.inl rfl, h⟩

theorem isPadding_nil : IsPadding [] := List.forall_mem_nil _

section Lines

variable {block : Text} (hfull : HasFullLines block)

include hfull

theorem map_indentLine (indent : Text) :
    (splitOn '\n' block).map (indentLine indent) = (splitOn '\n' block).map (indent ++ ·) := by
  refine List.map_congr_left fun line hline => ?_
  rw [indentLine, if_neg (by simpa using hfull line hline)]

theorem indented_eq_allBehind (indent : Text) : indented block indent = allBehind indent block := by
  rw [indented, map_indentLine hfull, allBehind]

theorem indentRest_eq_laterBehind (indent : Text) :
    indentRest block indent = laterBehind indent block := by
  have hlines := map_indentLine hfull indent
  unfold indentRest laterBehind
  cases hsplit : splitOn '\n' block with
  | nil => rfl
  | cons first others =>
      rw [hsplit, List.map_cons, List.map_cons, List.cons.injEq] at hlines
      change join ['\n'] (first :: others.map (indentLine indent)) =
        join ['\n'] (first :: others.map (indent ++ ·))
      rw [hlines.2]

/-! ## Ways of putting in a block -/

theorem insertsBlock_placeBefore {t : Text} {index : Nat} (hindex : index ≤ t.length) :
    InsertsBlock block t (placeBefore t index block) := by
  have hindent := IsIndentation.indentOfLine t index
  unfold placeBefore
  simp only [indented_eq_allBehind hfull]
  split
  · refine ⟨startOfLine t index, _, [], ['\n', '\n'],
      Nat.le_trans (startOfLine_le t index) hindex, hindent, isPadding_nil, isPadding_nil.cons.cons, ?_⟩
    simp
  · refine ⟨index, _, ['\n'], '\n' :: indentOfLine t index, hindex, hindent, isPadding_nil.cons,
      (IsPadding.of_isIndentation hindent).cons, ?_⟩
    simp

theorem insertsBlock_placeBeforeCloser {t : Text} {close : Nat} (hclose : close ≤ t.length)
    {indent : Text} (hindent : IsIndentation indent) :
    InsertsBlock block t (placeBeforeCloser t close block indent) := by
  have hplace : (if opensLine t close then startOfLine t close else close) ≤ t.length := by
    split
    · exact Nat.le_trans (startOfLine_le t close) hclose
    · exact hclose
  refine ⟨_, indent, ['\n'], ['\n'], hplace, hindent, isPadding_nil.cons, isPadding_nil.cons, ?_⟩
  simp [placeBeforeCloser, indented_eq_allBehind hfull]

theorem insertsBlock_placeBehindLine (t : Text) (index : Nat) {indent : Text}
    (hindent : IsIndentation indent) :
    InsertsBlock block t (placeBehindLine t index block indent) := by
  unfold placeBehindLine
  simp only [indented_eq_allBehind hfull]
  split
  · refine ⟨t.length, indent, ['\n', '\n'], ['\n'], Nat.le_refl _, hindent,
      isPadding_nil.cons.cons, isPadding_nil.cons, ?_⟩
    simp
  · next feed after hafter =>
    -- What is behind the line is an end of the text.
    have hsuffix : after <:+ t :=
      ((List.suffix_cons feed after).trans (hafter ▸ List.dropWhile_suffix _)).trans
        (List.drop_suffix index t)
    refine ⟨t.length - after.length, indent, ['\n'], ['\n'], Nat.sub_le _ _, hindent,
      isPadding_nil.cons, isPadding_nil.cons, ?_⟩
    rw [← List.suffix_iff_eq_drop.1 hsuffix]
    simp

end Lines

end Code

/-! ## Installers -/

/-- An installer that puts in a block, with the signature of the declarations that the block takes
the place of. -/
structure HookForm where
  installer : Installer
  hook : Text
  signature : Pattern

namespace HookForm

/-- All installers but the one that sets an argument. -/
def all : List HookForm :=
  [⟨.expoReactHost, hookInKotlin, kotlinBundleMethod⟩, ⟨.kotlin, hookInKotlin, kotlinBundleMethod⟩,
   ⟨.java, hookInJava, javaBundleMethod⟩, ⟨.swift, hookInSwift, swiftBundleMethod⟩,
   ⟨.objectiveC, hookInObjectiveC, objectiveCBundleMethod⟩]

/-- The hook takes the place of the first declaration with its signature, or it is put in. -/
def PutsIn (form : HookForm) (t out : Text) : Prop :=
  (∃ span, firstDeclaration t form.signature = some span ∧ span.start < span.stop ∧
    span.stop ≤ t.length ∧
    out = t.take span.start ++ laterBehind (indentOfLine t span.start) form.hook ++
      t.drop span.stop) ∨
  firstDeclaration t form.signature = none ∧ InsertsBlock form.hook t out

theorem hasFullLines_hook {form : HookForm} (h : form ∈ all) : HasFullLines form.hook := by
  have hall : ∀ form ∈ all, (splitOn '\n' form.hook).all (fun line => line != []) = true := by
    simp only [all, List.forall_mem_cons]
    decide
  exact fun line hline => bne_iff_ne.1 (List.all_eq_true.1 (hall form h) line hline)

theorem putsIn_replaceSpan {form : HookForm} (hfull : HasFullLines form.hook) {t : Text}
    {span : Span} (h : firstDeclaration t form.signature = some span) :
    form.PutsIn t (replaceSpan t span form.hook) := by
  obtain ⟨hlt, hlength, -⟩ := firstDeclaration_eq_some h
  exact .inl ⟨span, h, hlt, hlength, by rw [replaceSpan, indentRest_eq_laterBehind hfull]⟩

theorem putsIn_installInClass {form : HookForm} (hfull : HasFullLines form.hook)
    {launchPattern : Pattern} {t out : Text}
    (h : MainApplication.installInClass form.hook form.signature launchPattern t = some out) :
    form.PutsIn t out := by
  unfold MainApplication.installInClass at h
  split at h
  · next existing hexisting =>
    obtain rfl := Option.some.inj h
    exact putsIn_replaceSpan hfull hexisting
  · next hnone =>
    refine .inr ⟨hnone, ?_⟩
    split at h
    · next launch hlaunch =>
      obtain rfl := Option.some.inj h
      have hmatches := matchesAt_of_search hlaunch
      exact insertsBlock_placeBefore hfull (Nat.le_trans hmatches.1 hmatches.2.1)
    · simp only [MainApplication.placeAtClassEnd, Option.bind_eq_bind, Option.bind_eq_some_iff,
        Option.pure_def, Option.some.injEq] at h
      obtain ⟨head, -, close, hclose, rfl⟩ := h
      exact insertsBlock_placeBeforeCloser hfull (Nat.le_of_lt (lt_length_of_matchingCloser hclose))
        (.memberIndent t _ close)

theorem putsIn_installInWrapper {form : HookForm} (hfull : HasFullLines form.hook)
    (hhook : form.hook = hookInKotlin) (hsignature : form.signature = kotlinBundleMethod)
    {t out : Text} (h : MainApplication.installInWrapper t = some out) : form.PutsIn t out := by
  unfold MainApplication.installInWrapper at h
  rw [← hhook, ← hsignature] at h
  split at h
  · next existing hexisting =>
    obtain rfl := Option.some.inj h
    exact putsIn_replaceSpan hfull hexisting
  · next hnone =>
    refine .inr ⟨hnone, ?_⟩
    split at h
    · next accessor _ =>
      obtain rfl := Option.some.inj h
      exact insertsBlock_placeBehindLine hfull t _ (.indentOfLine t accessor.start)
    · simp only [Option.bind_eq_bind, Option.bind_eq_some_iff, Option.pure_def,
        Option.some.injEq] at h
      obtain ⟨object, -, brace, -, close, hclose, rfl⟩ := h
      obtain ⟨-, -, -, -, hle, -⟩ := matchingCloser_eq_some hclose
      have hlt := lt_length_of_matchingCloser hclose
      refine ⟨brace + 1, _, ['\n'], ['\n'], by omega, .memberIndent t brace close,
        isPadding_nil.cons, isPadding_nil.cons, ?_⟩
      simp [indented_eq_allBehind hfull]

theorem putsIn_installSwift {form : HookForm} (hfull : HasFullLines form.hook)
    (hhook : form.hook = hookInSwift) (hsignature : form.signature = swiftBundleMethod)
    {t out : Text} (h : AppDelegate.installSwift t = some out) : form.PutsIn t out := by
  unfold AppDelegate.installSwift at h
  rw [← hhook, ← hsignature] at h
  split at h
  · next existing hexisting =>
    obtain rfl := Option.some.inj h
    exact putsIn_replaceSpan hfull hexisting
  · next hnone =>
    refine .inr ⟨hnone, ?_⟩
    split at h
    · next launch hlaunch =>
      obtain rfl := Option.some.inj h
      have hmatches := matchesAt_of_search hlaunch
      exact insertsBlock_placeBefore hfull (Nat.le_trans hmatches.1 hmatches.2.1)
    · simp only [Option.bind_eq_bind, Option.bind_eq_some_iff, Option.pure_def,
        Option.some.injEq] at h
      obtain ⟨head, -, close, hclose, rfl⟩ := h
      exact insertsBlock_placeBeforeCloser hfull (Nat.le_of_lt (lt_length_of_matchingCloser hclose))
        (.memberIndent t _ close)

theorem putsIn_installObjectiveC {form : HookForm} (hfull : HasFullLines form.hook)
    (hhook : form.hook = hookInObjectiveC) (hsignature : form.signature = objectiveCBundleMethod)
    {t out : Text} (h : AppDelegate.installObjectiveC t = some out) : form.PutsIn t out := by
  unfold AppDelegate.installObjectiveC at h
  rw [← hhook, ← hsignature] at h
  split at h
  · next existing hexisting =>
    obtain rfl := Option.some.inj h
    exact putsIn_replaceSpan hfull hexisting
  · next hnone =>
    refine .inr ⟨hnone, ?_⟩
    split at h
    · next launch hlaunch =>
      obtain rfl := Option.some.inj h
      have hmatches := matchesAt_of_search hlaunch
      exact insertsBlock_placeBefore hfull (Nat.le_trans hmatches.1 hmatches.2.1)
    · simp only [Option.bind_eq_bind, Option.bind_eq_some_iff, Option.pure_def,
        Option.some.injEq] at h
      obtain ⟨head, hhead, classEnd, hend, rfl⟩ := h
      obtain ⟨hmatches, -⟩ := matchesAt_of_searchAfter (matchesAt_of_search hhead).2.1 hend
      exact insertsBlock_placeBefore hfull (Nat.le_trans hmatches.1 hmatches.2.1)

/-- Whatever an installer answers is the text with the hook put in. -/
theorem putsIn_of_install {form : HookForm} (hform : form ∈ all) {t out : Text}
    (h : form.installer.install t = some out) : form.PutsIn t out := by
  have hfull := hasFullLines_hook hform
  simp only [all, List.mem_cons, List.not_mem_nil, or_false] at hform
  rcases hform with rfl | rfl | rfl | rfl | rfl
  · exact putsIn_installInWrapper hfull rfl rfl h
  · exact putsIn_installInClass hfull h
  · exact putsIn_installInClass hfull h
  · exact putsIn_installSwift hfull rfl rfl h
  · exact putsIn_installObjectiveC hfull rfl rfl h

end HookForm

namespace Installer

/-- An installer that changes a text installs into the text with its imports. -/
theorem install_of_apply_ne {installer : Installer} {t : Text} (h : installer.apply t ≠ t) :
    installer.install (ensureImports installer.style t installer.imports) =
      some (installer.apply t) := by
  unfold apply at h ⊢
  split
  · next here => exact absurd (if_pos here) h
  · next absent =>
    rw [if_neg absent] at h
    cases hinstall : installer.install (ensureImports installer.style t installer.imports) with
    | none => exact absurd (by rw [hinstall]; rfl) h
    | some out => rfl

end Installer

/-- A file that an installer changes is the file with its missing import lines added, and in that
text the hook has taken the place of the first declaration with its signature, or there is none and
the hook has been put in at one offset. -/
theorem surroundings_kept {form : HookForm} (hform : form ∈ HookForm.all) {t : Text}
    (hchanged : form.installer.apply t ≠ t) :
    ∃ imported, imported = ensureImports form.installer.style t form.installer.imports ∧
      ImportsAdded form.installer.imports t imported ∧
      ((∃ span, firstDeclaration imported form.signature = some span ∧ span.start < span.stop ∧
          span.stop ≤ imported.length ∧
          form.installer.apply t = imported.take span.start ++
            laterBehind (indentOfLine imported span.start) form.hook ++ imported.drop span.stop) ∨
        firstDeclaration imported form.signature = none ∧
          ∃ place indent before behind, place ≤ imported.length ∧ IsIndentation indent ∧
            IsPadding before ∧ IsPadding behind ∧
            form.installer.apply t = imported.take place ++
              (before ++ allBehind indent form.hook ++ behind) ++ imported.drop place) :=
  ⟨_, rfl, importsAdded_ensureImports _ t _,
    HookForm.putsIn_of_install hform (Installer.install_of_apply_ne hchanged)⟩

theorem surroundings_kept_emptyClass :
    ∃ form ∈ HookForm.all, ∃ t : Text, form.installer.apply t ≠ t ∧
      ∃ imported, imported = ensureImports form.installer.style t form.installer.imports ∧
        ImportsAdded form.installer.imports t imported ∧
        ((∃ span, firstDeclaration imported form.signature = some span ∧ span.start < span.stop ∧
            span.stop ≤ imported.length ∧
            form.installer.apply t = imported.take span.start ++
              laterBehind (indentOfLine imported span.start) form.hook ++
              imported.drop span.stop) ∨
          firstDeclaration imported form.signature = none ∧
            ∃ place indent before behind, place ≤ imported.length ∧ IsIndentation indent ∧
              IsPadding before ∧ IsPadding behind ∧
              form.installer.apply t = imported.take place ++
                (before ++ allBehind indent form.hook ++ behind) ++ imported.drop place) := by
  have hform : ⟨.java, hookInJava, javaBundleMethod⟩ ∈ HookForm.all :=
    .tail _ (.tail _ (.head _))
  have hchanged : Installer.java.apply "class MainApplication \x7b\x7d".toList ≠
      "class MainApplication \x7b\x7d".toList := by decide
  exact ⟨_, hform, _, hchanged, surroundings_kept hform hchanged⟩

end BundleHook
