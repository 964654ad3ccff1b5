import BundleHook.Proofs.Entry.HookRendering
import Mathlib.Logic.Function.Iterate

/-!
# Patching settles after one round

Every installer leaves the construct that marks an installed hook in the text, because each way of
placing a hook keeps its rendering whole. A file that was changed therefore has its hook, and the
next round leaves it alone.

* `Installer.InstallsHook` — what an installer promises about the text it answers;
* `patching_settles` — installers and dispatchers, over any number of rounds.
-/

namespace BundleHook

open Text Code Code.Pattern Entry

/-! ## Placing a rendered hook -/

section Placing

variable {pattern : Pattern} {hook : Text} (h : Rendered pattern hook)

include h

theorem occursIn_replaceSpan (t : Text) (span : Span) :
    pattern.occursIn (replaceSpan t span hook) = true :=
  h.indentRest (.indentOfLine t span.start) _ _

theorem occursIn_placeBefore (t : Text) (index : Nat) :
    pattern.occursIn (placeBefore t index hook) = true := by
  have hshows := h.indented (.indentOfLine t index)
  unfold placeBefore
  simp only
  split
  · rw [List.append_assoc _ ['\n', '\n']]
    exact hshows _ _
  · rw [List.append_assoc _ ['\n'] (indentOfLine t index), List.append_assoc _ _ (t.drop index)]
    exact hshows _ _

theorem occursIn_placeBeforeCloser (t : Text) (closeIndex : Nat) {indent : Text}
    (hindent : IsIndentation indent) :
    pattern.occursIn (placeBeforeCloser t closeIndex hook indent) = true := by
  unfold placeBeforeCloser
  simp only
  rw [List.append_assoc _ ['\n'] (t.drop _)]
  exact h.indented hindent _ _

theorem occursIn_placeBehindLine (t : Text) (index : Nat) {indent : Text}
    (hindent : IsIndentation indent) :
    pattern.occursIn (placeBehindLine t index hook indent) = true := by
  unfold placeBehindLine
  simp only
  split
  · exact h.indented hindent _ _
  · next after _ =>
    rw [List.append_assoc _ ['\n'] after]
    exact h.indented hindent _ _

end Placing

/-! ## The installers -/

namespace Entry.MainApplication

theorem occursIn_installInClass {hook : Text} (h : Rendered androidInstalledPattern hook)
    {hookPattern launchPattern : Pattern} {t out : Text}
    (hout : installInClass hook hookPattern launchPattern t = some out) :
    androidInstalledPattern.occursIn out = true := by
  unfold installInClass at hout
  split at hout
  · next existing _ =>
    obtain rfl := Option.some.inj hout
    exact occursIn_replaceSpan h t existing
  · split at hout
    · next launch _ =>
      obtain rfl := Option.some.inj hout
      exact occursIn_placeBefore h t launch.start
    · simp only [placeAtClassEnd, Option.bind_eq_bind, Option.bind_eq_some_iff, Option.pure_def,
        Option.some.injEq] at hout
      obtain ⟨head, -, close, -, rfl⟩ := hout
      exact occursIn_placeBeforeCloser h t close (.memberIndent t _ close)

theorem occursIn_installInWrapper {t out : Text} (hout : installInWrapper t = some out) :
    androidInstalledPattern.occursIn out = true := by
  have h := rendered_hookInKotlin
  unfold installInWrapper at hout
  split at hout
  · next existing _ =>
    obtain rfl := Option.some.inj hout
    exact occursIn_replaceSpan h t existing
  · split at hout
    · next accessor _ =>
      obtain rfl := Option.some.inj hout
      exact occursIn_placeBehindLine h t _ (.indentOfLine t accessor.start)
    · simp only [Option.bind_eq_bind, Option.bind_eq_some_iff, Option.pure_def,
        Option.some.injEq] at hout
      obtain ⟨object, -, brace, -, closeBrace, -, rfl⟩ := hout
      rw [List.append_assoc _ ['\n'] (t.drop _)]
      exact h.indented (.memberIndent t brace closeBrace) _ _

/-- The value of the host argument is the choice itself, so that it shows wherever it stands. -/
theorem occursIn_setHostArgument {t out : Text} {call : Span}
    (hout : setHostArgument t call = some out) : androidInstalledPattern.occursIn out = true := by
  have h := shows_hostValue
  have hargument :
      androidInstalledPattern.Shows (hostArgument.toList ++ " = ".toList ++ hostValue) :=
    h.append_left _
  simp only [setHostArgument, Option.bind_eq_bind, Option.bind_eq_some_iff] at hout
  obtain ⟨close, -, hout⟩ := hout
  split at hout
  · obtain rfl := Option.some.inj hout
    exact h _ _
  · obtain rfl := Option.some.inj hout
    unfold addHostArgument
    simp only
    split
    · rw [List.append_assoc _ [','] (t.drop _)]
      exact hargument _ _
    · split
      · exact hargument _ _
      · rw [List.append_assoc _ [',', ' '] (t.drop _)]
        exact hargument _ _

end Entry.MainApplication

namespace Entry.AppDelegate

theorem occursIn_installSwift {t out : Text} (hout : installSwift t = some out) :
    iosInstalledPattern.occursIn out = true := by
  have h := rendered_hookInSwift
  unfold installSwift at hout
  split at hout
  · next existing _ =>
    obtain rfl := Option.some.inj hout
    exact occursIn_replaceSpan h t existing
  · split at hout
    · next launch _ =>
      obtain rfl := Option.some.inj hout
      exact occursIn_placeBefore h t launch.start
    · simp only [Option.bind_eq_bind, Option.bind_eq_some_iff, Option.pure_def,
        Option.some.injEq] at hout
      obtain ⟨head, -, close, -, rfl⟩ := hout
      exact occursIn_placeBeforeCloser h t close (.memberIndent t _ close)

theorem occursIn_installObjectiveC {t out : Text} (hout : installObjectiveC t = some out) :
    iosInstalledPattern.occursIn out = true := by
  have h := rendered_hookInObjectiveC
  unfold installObjectiveC at hout
  split at hout
  · next existing _ =>
    obtain rfl := Option.some.inj hout
    exact occursIn_replaceSpan h t existing
  · split at hout
    · next launch _ =>
      obtain rfl := Option.some.inj hout
      exact occursIn_placeBefore h t launch.start
    · simp only [Option.bind_eq_bind, Option.bind_eq_some_iff, Option.pure_def,
        Option.some.injEq] at hout
      obtain ⟨head, -, classEnd, -, rfl⟩ := hout
      exact occursIn_placeBefore h t classEnd.start

end Entry.AppDelegate

namespace Installer

/-- Whatever the installer answers has the hook of its platform. -/
def InstallsHook (installer : Installer) : Prop :=
  ∀ t out : Text, installer.install t = some out → installer.platform.isInstalled out = true

/-- The installers of all dialects. -/
def all : List Installer := [expoReactHost, reactHost, kotlin, java, swift, objectiveC]

theorem installsHook_of_mem_all {installer : Installer} (h : installer ∈ all) :
    installer.InstallsHook := by
  simp only [all, List.mem_cons, List.not_mem_nil, or_false] at h
  rcases h with rfl | rfl | rfl | rfl | rfl | rfl
  · exact fun _ _ => MainApplication.occursIn_installInWrapper
  · intro t out hout
    simp only [reactHost, MainApplication.installInHostCall, Option.bind_eq_bind,
      Option.bind_eq_some_iff] at hout
    obtain ⟨call, -, hout⟩ := hout
    exact MainApplication.occursIn_setHostArgument hout
  · exact fun _ _ => MainApplication.occursIn_installInClass rendered_hookInKotlin
  · exact fun _ _ => MainApplication.occursIn_installInClass rendered_hookInJava
  · exact fun _ _ => AppDelegate.occursIn_installSwift
  · exact fun _ _ => AppDelegate.occursIn_installObjectiveC

theorem apply_of_isInstalled {installer : Installer} {t : Text}
    (h : installer.platform.isInstalled t = true) : installer.apply t = t := by
  rw [apply, if_pos h]

/-- An installer changes only a text without the hook, and the changed text has it. -/
theorem InstallsHook.of_apply_ne {installer : Installer} (h : installer.InstallsHook) {t : Text}
    (hne : installer.apply t ≠ t) :
    installer.platform.isInstalled t = false ∧
      installer.platform.isInstalled (installer.apply t) = true := by
  have hbefore : installer.platform.isInstalled t = false :=
    Bool.eq_false_iff.2 fun hinstalled => hne (apply_of_isInstalled hinstalled)
  refine ⟨hbefore, ?_⟩
  rw [apply, if_neg (by simp [hbefore])] at hne ⊢
  cases hout : installer.install (ensureImports installer.style t installer.imports) with
  | none => simp [hout] at hne
  | some out => exact h _ out hout

theorem InstallsHook.apply_apply {installer : Installer} (h : installer.InstallsHook) (t : Text) :
    installer.apply (installer.apply t) = installer.apply t := by
  by_cases hne : installer.apply t = t
  · rw [hne, hne]
  · exact apply_of_isInstalled (h.of_apply_ne hne).2

theorem InstallsHook.iterate_apply {installer : Installer} (h : installer.InstallsHook) (t : Text)
    (n : Nat) : installer.apply^[n + 1] t = installer.apply t := by
  induction n with
  | zero => rfl
  | succ n ih => rw [Function.iterate_succ_apply', ih, h.apply_apply]

theorem mem_all_of_android {dialect : AndroidDialect} {installer : Installer}
    (h : dialect.installer? = some installer) :
    installer ∈ all ∧ installer.platform = .android := by
  cases dialect <;> simp only [AndroidDialect.installer?, Option.some.injEq, reduceCtorEq] at h
  all_goals
    subst h
    exact ⟨by simp [all], rfl⟩

theorem mem_all_of_ios {dialect : IosDialect} {installer : Installer}
    (h : dialect.installer? = some installer) : installer ∈ all ∧ installer.platform = .ios := by
  cases dialect <;> simp only [IosDialect.installer?, Option.some.injEq, reduceCtorEq] at h
  all_goals
    subst h
    exact ⟨by simp [all], rfl⟩

end Installer

/-! ## The dispatchers -/

namespace Outcome

/-- What patching an entry file can come to: the hook is there, there is no place for it, or one of
the platform's installers has changed the text. -/
inductive Decides (platform : Platform) (fileName : String) (t : Text) : Outcome → Prop where
  | installed (dialect : Dialect) (here : platform.isInstalled t = true) :
      Decides platform fileName t (.installed fileName dialect t)
  | refused (dialect : Dialect) (why : Difficulty) (absent : platform.isInstalled t = false) :
      Decides platform fileName t (.refused fileName dialect t why)
  | patched (dialect : Dialect) (diagnostics : List Diagnostic) {installer : Installer}
      (known : installer ∈ Installer.all) (own : installer.platform = platform)
      (changes : installer.apply t ≠ t) :
      Decides platform fileName t (.patched fileName dialect (installer.apply t) diagnostics)

section Decisions

variable {platform : Platform} {fileName : String} {t : Text}
  (absent : platform.isInstalled t = false)

include absent

theorem decides_ofInstaller {installer : Installer} (dialect : Dialect)
    (h : installer ∈ Installer.all ∧ installer.platform = platform) :
    Decides platform fileName t (ofInstaller fileName dialect installer t) := by
  unfold ofInstaller
  simp only
  split
  · exact .refused dialect _ absent
  · next hne => exact .patched dialect [] h.1 h.2 hne

theorem decides_ofGuesses {tries : List (String × Installer)}
    (h : ∀ guess ∈ tries, guess.2 ∈ Installer.all ∧ guess.2.platform = platform) :
    Decides platform fileName t (ofGuesses fileName t tries) := by
  induction tries with
  | nil => exact .refused _ _ absent
  | cons guess others ih =>
      obtain ⟨language, installer⟩ := guess
      have hfirst := h (language, installer) List.mem_cons_self
      unfold ofGuesses
      simp only
      split
      · exact ih fun guess hguess => h guess (List.mem_cons_of_mem _ hguess)
      · next hne => exact .patched _ _ hfirst.1 hfirst.2 hne

end Decisions

theorem decides_ofEntry (platform : Platform) (fileName : String) (t : Text) :
    Decides platform fileName t (ofEntry platform fileName t) := by
  cases platform with
  | android =>
      simp only [ofEntry, ofMainApplication]
      split
      · next here => exact .installed _ here
      · next hnot =>
        have absent := Bool.eq_false_iff.2 hnot
        split
        · next installer hinstaller =>
          exact decides_ofInstaller absent _ (Installer.mem_all_of_android hinstaller)
        · exact .refused _ _ absent
  | ios =>
      simp only [ofEntry, ofAppDelegate]
      split
      · next here => exact .installed _ here
      · next hnot =>
        have absent := Bool.eq_false_iff.2 hnot
        split
        · next installer hinstaller =>
          exact decides_ofInstaller absent _ (Installer.mem_all_of_ios hinstaller)
        · exact decides_ofGuesses absent (by simp [guesses, Installer.all, Installer.swift,
            Installer.objectiveC])

/-- A text that has its hook is answered as it is, without a word. -/
theorem ofEntry_of_isInstalled {platform : Platform} {t : Text}
    (h : platform.isInstalled t = true) (fileName : String) :
    ∃ dialect, ofEntry platform fileName t = .installed fileName dialect t := by
  have hdecides := decides_ofEntry platform fileName t
  generalize ofEntry platform fileName t = outcome at hdecides
  cases hdecides with
  | installed dialect here => exact ⟨dialect, rfl⟩
  | refused dialect why absent => simp [h] at absent
  | patched dialect diagnostics known own changes =>
      subst own
      exact absurd (Installer.apply_of_isInstalled h) changes

/-- The outcome of a round, where every round patches what the one before it has answered. -/
def round (platform : Platform) (fileName : String) (t : Text) : Nat → Outcome
  | 0 => ofEntry platform fileName t
  | n + 1 => ofEntry platform fileName (round platform fileName t n).contents

theorem isInstalled_of_changed {platform : Platform} {fileName : String} {t : Text}
    (h : (ofEntry platform fileName t).changed = true) :
    platform.isInstalled t = false ∧
      platform.isInstalled (ofEntry platform fileName t).contents = true := by
  have hdecides := decides_ofEntry platform fileName t
  generalize ofEntry platform fileName t = outcome at hdecides h ⊢
  cases hdecides with
  | installed => cases h
  | refused => cases h
  | patched dialect diagnostics known own changes =>
      subst own
      exact (Installer.installsHook_of_mem_all known).of_apply_ne changes

theorem contents_of_not_changed {platform : Platform} {fileName : String} {t : Text}
    (h : (ofEntry platform fileName t).changed = false) :
    (ofEntry platform fileName t).contents = t := by
  have hdecides := decides_ofEntry platform fileName t
  generalize ofEntry platform fileName t = outcome at hdecides h ⊢
  cases hdecides with
  | installed => rfl
  | refused => rfl
  | patched => cases h

theorem contents_round (platform : Platform) (fileName : String) (t : Text) (n : Nat) :
    (round platform fileName t n).contents = (ofEntry platform fileName t).contents := by
  induction n with
  | zero => rfl
  | succ n ih =>
      rw [round, ih]
      cases hchanged : (ofEntry platform fileName t).changed with
      | false => rw [contents_of_not_changed hchanged, contents_of_not_changed hchanged]
      | true =>
          obtain ⟨dialect, hnext⟩ :=
            ofEntry_of_isInstalled (isInstalled_of_changed hchanged).2 fileName
          rw [hnext]
          rfl

/-- Once a round has changed the text, all later ones find the hook. -/
theorem round_of_changed {platform : Platform} {fileName : String} {t : Text} {m n : Nat}
    (hlt : m < n) (hchanged : (round platform fileName t m).changed = true) :
    ∃ dialect, round platform fileName t n =
      .installed fileName dialect (round platform fileName t m).contents := by
  have hinstalled : platform.isInstalled (round platform fileName t m).contents = true := by
    cases m with
    | zero => exact (isInstalled_of_changed hchanged).2
    | succ m => exact (isInstalled_of_changed hchanged).2
  obtain ⟨k, rfl⟩ := Nat.exists_eq_add_of_lt hlt
  rw [round, contents_round, ← contents_round platform fileName t m]
  exact ofEntry_of_isInstalled hinstalled fileName

end Outcome

/-! ## Settling -/

/-- A changed text had no hook and has one, and whatever is patched again stays as the first round
left it: the installers of all dialects on every text, and the dispatchers of both platforms, which
find the hook in each round behind a changing one and say nothing more. -/
theorem patching_settles (t : Text) :
    (∀ installer ∈ Installer.all,
      (installer.apply t ≠ t →
        installer.platform.isInstalled t = false ∧
          installer.platform.isInstalled (installer.apply t) = true) ∧
      ∀ n, 1 ≤ n → installer.apply^[n] t = installer.apply t) ∧
    ∀ (platform : Platform) (fileName : String),
      ((Outcome.ofEntry platform fileName t).contents ≠ t →
        platform.isInstalled t = false ∧
          platform.isInstalled (Outcome.ofEntry platform fileName t).contents = true) ∧
      (∀ n, (Outcome.round platform fileName t n).contents =
        (Outcome.ofEntry platform fileName t).contents) ∧
      ∀ m n, m < n → (Outcome.round platform fileName t m).changed = true →
        (Outcome.round platform fileName t n).alreadyPatched = true ∧
          (Outcome.round platform fileName t n).changed = false ∧
          (Outcome.round platform fileName t n).diagnostics = [] := by
  refine ⟨fun installer hmem => ?_, fun platform fileName => ⟨fun hne => ?_, ?_, ?_⟩⟩
  · have hinstalls := Installer.installsHook_of_mem_all hmem
    refine ⟨hinstalls.of_apply_ne, fun n hn => ?_⟩
    obtain ⟨k, rfl⟩ := Nat.exists_eq_add_of_le' hn
    exact hinstalls.iterate_apply t k
  · refine Outcome.isInstalled_of_changed (Bool.of_not_eq_false fun hsame => ?_)
    exact hne (Outcome.contents_of_not_changed hsame)
  · exact Outcome.contents_round platform fileName t
  · intro m n hlt hchanged
    obtain ⟨dialect, hround⟩ := Outcome.round_of_changed hlt hchanged
    rw [hround]
    exact ⟨rfl, rfl, rfl⟩

/-- An empty application class is changed by the Java installer and by the first round only. -/
theorem patching_settles_emptyClass :
    Installer.java ∈ Installer.all ∧
      Installer.java.apply "class MainApplication \x7b\x7d".toList ≠
        "class MainApplication \x7b\x7d".toList ∧
      Installer.java.platform.isInstalled
        (Installer.java.apply "class MainApplication \x7b\x7d".toList) = true ∧
      Installer.java.apply^[3] "class MainApplication \x7b\x7d".toList =
        Installer.java.apply "class MainApplication \x7b\x7d".toList ∧
      (Outcome.round .android "Main" "class MainApplication \x7b\x7d".toList 0).changed = true ∧
      (Outcome.round .android "Main" "class MainApplication \x7b\x7d".toList 2).alreadyPatched =
        true := by
  obtain ⟨hinstallers, hrounds⟩ := patching_settles "class MainApplication \x7b\x7d".toList
  have hmem : Installer.java ∈ Installer.all := by simp [Installer.all]
  have hne : Installer.java.apply "class MainApplication \x7b\x7d".toList ≠
      "class MainApplication \x7b\x7d".toList := by decide
  have hchanged :
      (Outcome.round .android "Main" "class MainApplication \x7b\x7d".toList 0).changed = true := by
    decide
  obtain ⟨hguard, hiterate⟩ := hinstallers Installer.java hmem
  exact ⟨hmem, hne, (hguard hne).2, hiterate 3 (by decide), hchanged,
    ((hrounds .android "Main").2.2 0 2 (by decide) hchanged).1⟩

end BundleHook
