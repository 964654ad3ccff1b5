import BundleHook.Proofs.Code.Eager
import BundleHook.Proofs.Entry.HostArgument
import BundleHook.Proofs.Entry.ImportPlaces
import BundleHook.Proofs.Entry.OutcomeShape

/-!
# Carriage returns of a patched file

Import lines end as the lines of their file do, and the bundle argument of a call takes the place of
a value without touching the ends of lines. A block of code, and an argument on a line of its own,
bring line feeds of their own, which follow no carriage return.

* `HookForm.PutsIn.not_allReturned`: a block is never put in with carriage returns;
* `allReturned_installInHostCall_iff`: when setting the argument keeps the carriage returns;
* `carriage_returns_kept_iff`: the files that keep them.
-/

namespace BundleHook

open Text Code Code.Pattern Entry Entry.MainApplication

/-! ## Blocks -/

/-- The line feed behind the first line of a block follows no carriage return. -/
theorem not_allReturned_of_lines {first : Text} {others : List Text} (hne : first ≠ [])
    (hlast : first.getLast? ≠ some '\r') (hothers : others ≠ []) (a c : Text) :
    ¬ AllReturned (a ++ join ['\n'] (first :: others) ++ c) := by
  intro h
  have hfeed := h (a ++ first) (join ['\n'] others ++ c) (by simp [join_cons hothers])
  rw [List.getLast?_append_of_ne_nil a hne] at hfeed
  exact hlast hfeed

namespace HookForm

variable {form : HookForm}

theorem exists_lines_of_mem_all (h : form ∈ all) :
    ∃ first others, splitOn '\n' form.hook = first :: others ∧ first ≠ [] ∧
      first.getLast? ≠ some '\r' ∧ others ≠ [] := by
  have hall : ∀ form ∈ all, firstLine form.hook ≠ [] ∧ (firstLine form.hook).getLast? ≠ some '\r' ∧
      (splitOn '\n' form.hook).tail ≠ [] := by
    simp only [all, List.forall_mem_cons]
    decide
  exact ⟨_, _, lines_eq_tail form.hook, hall form h⟩

theorem PutsIn.not_allReturned {t out : Text} (hform : form ∈ all) (h : form.PutsIn t out) :
    ¬ AllReturned out := by
  obtain ⟨first, others, hlines, hne, hlast, hothers⟩ := exists_lines_of_mem_all hform
  have hmap (indent : Text) : others.map (indent ++ ·) ≠ [] := by simpa using hothers
  rcases h with ⟨span, -, -, -, rfl⟩ | ⟨-, place, indent, before, behind, -, -, -, -, rfl⟩
  · have hblock : laterBehind (indentOfLine t span.start) form.hook =
        join ['\n'] (first :: others.map (indentOfLine t span.start ++ ·)) := by
      rw [laterBehind, hlines]
      rfl
    rw [hblock]
    exact not_allReturned_of_lines hne hlast (hmap _) _ _
  · have hblock : allBehind indent form.hook =
        join ['\n'] ((indent ++ first) :: others.map (indent ++ ·)) := by
      rw [allBehind, hlines]
      rfl
    have hfirst := @not_allReturned_of_lines (indent ++ first) _ (by simp [hne])
      (by rwa [List.getLast?_append_of_ne_nil indent hne]) (hmap indent) (t.take place ++ before)
      (behind ++ t.drop place)
    rw [hblock]
    simpa only [List.append_assoc] using hfirst

theorem not_allReturned_apply (hform : form ∈ all) {t : Text}
    (hchanged : form.installer.apply t ≠ t) : ¬ AllReturned (form.installer.apply t) :=
  (putsIn_of_install hform (Installer.install_of_apply_ne hchanged)).not_allReturned hform

end HookForm

/-! ## The bundle argument -/

namespace Entry.MainApplication

/-- A carriage return at the end of a value is trimmed off. -/
theorem trimmedStop_lt {t : Text} {start stop : Nat} (hlt : start < stop)
    (hlength : stop ≤ t.length) (hlast : (t.take stop).getLast? = some '\r') :
    trimmedStop t start stop < stop := by
  obtain ⟨front, hfront⟩ := List.getLast?_eq_some_iff.1 hlast
  have hlengths := congrArg List.length hfront
  rw [List.length_take_of_le hlength, List.length_append, List.length_singleton] at hlengths
  have hslice : slice t start stop = front.drop start ++ ['\r'] := by
    rw [slice, hfront, List.drop_append_of_le_length (by omega)]
  have htrimmed : ((slice t start stop).reverse.takeWhile
      fun c => isIndent c || c == '\r').length ≠ 0 := by
    rw [hslice, List.reverse_append, List.reverse_singleton, List.singleton_append,
      List.takeWhile_cons_of_pos (by decide)]
    exact Nat.succ_ne_zero _
  unfold trimmedStop
  simp only
  omega

/-- In a text with carriage returns no line feed stands behind a trimmed value, unless it stands at
the start of the value. -/
theorem getElem?_trimmedStop {t : Text} {start stop : Nat} (ht : AllReturned t)
    (hle : start ≤ stop) (hlength : stop ≤ t.length) (hstart : t[start]? ≠ some '\n') :
    t[trimmedStop t start stop]? ≠ some '\n' := by
  obtain ⟨htrimmed, trail, htrail, hdrop⟩ := drop_trimmedStop hle hlength
  intro hfeed
  rw [← List.head?_drop, hdrop] at hfeed
  cases trail with
  | cons c trail =>
      obtain rfl : c = '\n' := Option.some.inj hfeed
      rcases htrail '\n' List.mem_cons_self with h | h <;> revert h <;> decide
  | nil =>
      have hsame := congrArg List.length hdrop
      rw [List.nil_append, List.length_drop, List.length_drop] at hsame
      have htrimmedLe : trimmedStop t start stop ≤ stop := Nat.sub_le _ _
      rw [List.nil_append, List.head?_drop] at hfeed
      obtain ⟨hlt, -⟩ := List.getElem?_eq_some_iff.1 hfeed
      have hne : start ≠ stop := by
        rintro rfl
        exact hstart hfeed
      have hreturn := everyFeed_iff_getElem?.1 ht stop hlt hfeed
      have hbefore := trimmedStop_lt (Nat.lt_of_le_of_ne hle hne) hlength hreturn
      omega

section Call

variable {t : Text} {openParen closeParen : Nat} (ht : AllReturned t)
  (hopen : t[openParen]? = some '(') (hclose : matchingCloser t openParen = some closeParen)

include ht hopen hclose

/-- A new value of the argument leaves the ends of lines as they are. -/
theorem allReturned_setHostValue {argument : Span}
    (hargument : hostArgumentPattern.searchAfter (t.take closeParen) openParen = some argument) :
    AllReturned (t.take argument.stop ++ hostValue ++
      t.drop (trimmedStop t argument.stop (expressionStop t argument.stop [',', ')']))) := by
  obtain ⟨-, -, -, hstop, -⟩ := bounds_of_hostArgument hopen hclose hargument
  obtain ⟨hlt, hcloser⟩ := getElem?_closeParen hopen hclose
  have hlength : closeParen ≤ t.length := Nat.le_of_lt (lt_length_of_matchingCloser hclose)
  obtain ⟨hexpression, hexpressionLength, -⟩ :=
    expressionStop_spec (Nat.le_trans hstop hlength) [',', ')']
  refine ht.splice _ (by decide) (getElem?_trimmedStop ht hexpression hexpressionLength ?_)
  -- The pattern takes all blanks before the value.
  intro hfeed
  rcases Nat.lt_or_eq_of_le hstop with hinside | heq
  · have hstart : openParen ≤ (t.take closeParen).length := by
      rw [List.length_take_of_le hlength]
      exact Nat.le_of_lt hlt
    have hblank : isBlank '\n' = false := getElem?_of_searchAfter_many hstart hargument
      (by rw [List.getElem?_take_of_lt hinside, hfeed])
    revert hblank
    decide
  · rw [heq, hcloser] at hfeed
    cases hfeed

/-- A new argument keeps the carriage returns unless it gets a line of its own. -/
theorem allReturned_addHostArgument_iff :
    AllReturned (addHostArgument t openParen closeParen) ↔
      '\n' ∉ slice t (openParen + 1) (skipBlanks t (openParen + 1)) := by
  obtain ⟨-, hcloser⟩ := getElem?_closeParen hopen hclose
  have hargument : '\n' ∉ hostArgument.toList ++ " = ".toList ++ hostValue := by decide
  unfold addHostArgument
  simp only [List.contains_iff_mem]
  split
  · next hfeed =>
    refine iff_of_false (fun h => ?_) (not_not_intro hfeed)
    have hlast := h (t.take (openParen + 1)) _ (by simp only [List.append_assoc]; rfl)
    rw [List.take_add_one, hopen, Option.toList_some, List.getLast?_concat] at hlast
    cases hlast
  · next hnone =>
    refine iff_of_true ?_ hnone
    split
    · exact ht.splice _ hargument (by rw [hcloser]; decide)
    · rw [List.append_assoc (t.take _)]
      refine ht.splice _ (fun hmem => ?_) fun hfeed => ?_
      · exact (List.mem_append.1 hmem).elim hargument (by decide)
      · exact absurd (getElem?_skipBlanks hfeed) (by decide)

end Call

/-- The first call of the host builder names no bundle, and its arguments begin on a line of their
own. -/
def AddsArgumentLine (t : Text) : Prop :=
  ∃ call closeParen, (defaultHostCallPattern.search t).or (hostCallPattern.search t) = some call ∧
    matchingCloser t (call.stop - 1) = some closeParen ∧
    hostArgumentPattern.searchAfter (t.take closeParen) (call.stop - 1) = none ∧
    '\n' ∈ slice t call.stop (skipBlanks t call.stop)

/-- Setting the bundle argument keeps the carriage returns unless the argument is added on a line of
its own. -/
theorem allReturned_installInHostCall_iff {t out : Text} (ht : AllReturned t)
    (hout : installInHostCall t = some out) : AllReturned out ↔ ¬ AddsArgumentLine t := by
  simp only [installInHostCall, setHostArgument, Option.bind_eq_bind,
    Option.bind_eq_some_iff] at hout
  obtain ⟨call, hcall, closeParen, hclose, hout⟩ := hout
  obtain ⟨openParen, hstop, hopen⟩ := exists_hostCall hcall
  have hparen : call.stop - 1 = openParen := by omega
  rw [hparen] at hclose hout
  -- The call and its end are determined by the text.
  have hadds : AddsArgumentLine t ↔
      hostArgumentPattern.searchAfter (t.take closeParen) openParen = none ∧
        '\n' ∈ slice t (openParen + 1) (skipBlanks t (openParen + 1)) := by
    constructor
    · rintro ⟨call', closeParen', hcall', hclose', hnone, hfeed⟩
      obtain rfl := Option.some.inj (hcall.symm.trans hcall')
      rw [hparen] at hclose' hnone
      obtain rfl := Option.some.inj (hclose.symm.trans hclose')
      rw [hstop] at hfeed
      exact ⟨hnone, hfeed⟩
    · rintro ⟨hnone, hfeed⟩
      exact ⟨call, closeParen, hcall, by rwa [hparen], by rwa [hparen], by rwa [hstop]⟩
  rw [hadds]
  split at hout
  · next argument hargument =>
    obtain rfl := Option.some.inj hout
    refine iff_of_true (allReturned_setHostValue ht hopen hclose hargument) fun h => ?_
    cases hargument.symm.trans h.1
  · next hnone =>
    obtain rfl := Option.some.inj hout
    rw [allReturned_addHostArgument_iff ht hopen hclose, and_iff_right hnone]

end Entry.MainApplication

/-! ## Installers -/

namespace Installer

/-- The installers of all dialects but one put in a block. -/
theorem exists_form_of_installer? {dialect : Dialect} {installer : Installer}
    (own : dialect.installer? = some installer) (hdialect : dialect ≠ .android .reactHost) :
    ∃ form ∈ HookForm.all, form.installer = installer := by
  rcases dialect with (_ | _ | _ | _ | _) | (_ | _ | _)
  · exact ⟨_, .head _, Option.some.inj own⟩
  · exact absurd rfl hdialect
  · exact ⟨_, .tail _ (.head _), Option.some.inj own⟩
  · exact ⟨_, .tail _ (.tail _ (.head _)), Option.some.inj own⟩
  · cases own
  · exact ⟨_, .tail _ (.tail _ (.tail _ (.head _))), Option.some.inj own⟩
  · exact ⟨_, .tail _ (.tail _ (.tail _ (.tail _ (.head _)))), Option.some.inj own⟩
  · cases own

/-- The import that the host builder needs ends its line as the lines of the text end. -/
theorem allReturned_reactHost_iff {t : Text} (hfeed : '\n' ∈ t) (ht : AllReturned t)
    (hchanged : reactHost.apply t ≠ t) :
    AllReturned (reactHost.apply t) ↔
      ¬ AddsArgumentLine (ensureImports .line t importsInKotlin) := by
  have hclean : ∀ required ∈ importsInKotlin, required.FitsLine := by decide
  obtain ⟨added, hplaced⟩ := exists_importsPlaced .line t importsInKotlin
  have himported : AllReturned (ensureImports .line t importsInKotlin) :=
    hplaced.everyFeed hclean (fun c d hcd => hcd.1) hfeed ht
  exact allReturned_installInHostCall_iff himported (install_of_apply_ne hchanged)

end Installer

/-! ## Entry files -/

/-- A file whose lines all end with a carriage return and a line feed stays such a file exactly when
it is left alone, or when the bundle argument of a host builder is set without giving it a line of
its own. -/
theorem carriage_returns_kept_iff (platform : Platform) (fileName : String) {t : Text}
    (hfeed : '\n' ∈ t) (ht : AllReturned t) :
    AllReturned (Outcome.ofEntry platform fileName t).contents ↔
      (Outcome.ofEntry platform fileName t).changed = false ∨
        Dialect.ofText platform t = .android .reactHost ∧
          ¬ AddsArgumentLine (ensureImports .line t importsInKotlin) := by
  have harises := Outcome.arises_ofEntry platform fileName t
  generalize Outcome.ofEntry platform fileName t = outcome at harises ⊢
  have hblock {form : HookForm} (hform : form ∈ HookForm.all)
      (hdialect : Dialect.ofText platform t ≠ .android .reactHost)
      (hchanged : form.installer.apply t ≠ t) :
      AllReturned (form.installer.apply t) ↔ true = false ∨
        Dialect.ofText platform t = .android .reactHost ∧
          ¬ AddsArgumentLine (ensureImports .line t importsInKotlin) := by
    refine iff_of_false (HookForm.not_allReturned_apply hform hchanged) ?_
    rintro (h | ⟨h, -⟩)
    · cases h
    · exact hdialect h
  cases harises with
  | installed => exact iff_of_true ht (.inl rfl)
  | unknownMainApplication => exact iff_of_true ht (.inl rfl)
  | @known installer absent own =>
      unfold Outcome.ofInstaller
      simp only
      split
      · exact iff_of_true ht (.inl rfl)
      · next hchanged =>
        by_cases hdialect : Dialect.ofText platform t = .android .reactHost
        · rw [hdialect] at own
          obtain rfl := Option.some.inj own
          refine (Installer.allReturned_reactHost_iff hfeed ht hchanged).trans ?_
          simp [Outcome.patched, hdialect]
        · obtain ⟨form, hform, rfl⟩ := Installer.exists_form_of_installer? own hdialect
          exact hblock hform hdialect hchanged
  | unknownAppDelegate absent unknown =>
      have hdialect : Dialect.ofText platform t ≠ .android .reactHost := by
        rw [unknown]
        exact Dialect.noConfusion
      rcases Outcome.ofGuesses_cases fileName t with ⟨hchanged, heq⟩ | ⟨-, hchanged, heq⟩ |
        ⟨-, -, heq⟩ <;> rw [heq]
      · exact @hblock ⟨.swift, hookInSwift, swiftBundleMethod⟩ (by simp [HookForm.all])
          hdialect hchanged
      · exact @hblock ⟨.objectiveC, hookInObjectiveC, objectiveCBundleMethod⟩
          (by simp [HookForm.all]) hdialect hchanged
      · exact iff_of_true ht (.inl rfl)

/-- A call of the host builder with its bundle argument, in a file with carriage returns. -/
def hostCallReturned : Text :=
  "import a\r\nval host = getDefaultReactHost(jsBundleFilePath = null)\r\n".toList

/-- The import line that is added and the new value keep the carriage returns. -/
theorem carriage_returns_kept_iff_hostCallReturned :
    '\n' ∈ hostCallReturned ∧ AllReturned hostCallReturned ∧
      (Outcome.ofEntry .android "Main" hostCallReturned).changed = true ∧
      AllReturned (Outcome.ofEntry .android "Main" hostCallReturned).contents := by
  have hfeed : '\n' ∈ hostCallReturned := by decide
  have hreturned : AllReturned hostCallReturned := by decide
  refine ⟨hfeed, hreturned, by decide,
    (carriage_returns_kept_iff .android "Main" hfeed hreturned).2 (.inr ⟨by decide, ?_⟩)⟩
  rintro ⟨call, closeParen, hcall, hclose, hnone, -⟩
  have hcall' : some ⟨51, 71⟩ = some call := hcall ▸ by decide
  obtain rfl := Option.some.inj hcall'
  have hclose' : some 94 = some closeParen := hclose ▸ by decide
  obtain rfl := Option.some.inj hclose'
  revert hnone
  decide

/-- The lines of a hook that is put in have no carriage returns. -/
theorem carriage_returns_lost_emptyClass :
    '\n' ∈ "class MainApplication \x7b\r\n\x7d\r\n".toList ∧
      AllReturned "class MainApplication \x7b\r\n\x7d\r\n".toList ∧
      ¬ AllReturned (Outcome.ofEntry .android "MainApplication"
        "class MainApplication \x7b\r\n\x7d\r\n".toList).contents := by
  refine ⟨by decide, by decide, fun h => ?_⟩
  -- The hook is set off from the opening brace by a bare line feed.
  have hblock := everyFeed_iff_getElem?.1 h 56 (by decide +kernel) (by decide +kernel)
  revert hblock
  decide

end BundleHook
