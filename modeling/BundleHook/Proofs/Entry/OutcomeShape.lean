import BundleHook.Proofs.Entry.Settling

/-!
# The three shapes of an outcome

Patching an entry file runs the guard, the recognition of the dialect and an installer, and puts
what they found into one record. The four agree: the hook was there, or it is there now, or the text
is left as it was with one warning that says why.

* `Outcome.Arises`: the ways in which an outcome comes about;
* `outcome_has_one_shape`: every outcome has exactly one of the three shapes, and its contents are
  what the installer of the file's dialect makes of the text.
-/

namespace BundleHook

open Entry

/-! ## Dialects of either platform -/

theorem AndroidDialect.installer?_eq_none {dialect : AndroidDialect} :
    dialect.installer? = none ↔ dialect = .unrecognized := by
  cases dialect <;> simp [installer?]

theorem IosDialect.installer?_eq_none {dialect : IosDialect} :
    dialect.installer? = none ↔ dialect = .unrecognized := by
  cases dialect <;> simp [installer?]

namespace Dialect

/-- The dialect of an entry file of the platform. -/
def ofText (platform : Platform) (t : Text) : Dialect :=
  match platform with
  | .android => .android (AndroidDialect.ofText t)
  | .ios => .ios (IosDialect.ofText t)

def installer? : Dialect → Option Installer
  | android dialect => dialect.installer?
  | ios dialect => dialect.installer?

def IsRecognized (dialect : Dialect) : Prop :=
  dialect ≠ .android .unrecognized ∧ dialect ≠ .ios .unrecognized

/-- Why an entry file of the dialect is left alone. -/
def refusal : Dialect → Difficulty
  | android .unrecognized => .unknownMainApplication
  | ios .unrecognized => .unknownAppDelegate
  | dialect => .noAnchor dialect

variable {dialect : Dialect} {platform : Platform} {t : Text} {installer : Installer}

theorem isRecognized_iff : dialect.IsRecognized ↔ dialect.installer? ≠ none := by
  cases dialect with
  | android dialect => simp [IsRecognized, installer?, AndroidDialect.installer?_eq_none]
  | ios dialect => simp [IsRecognized, installer?, IosDialect.installer?_eq_none]

theorem isRecognized_of_installer? (h : dialect.installer? = some installer) :
    dialect.IsRecognized := by
  rw [isRecognized_iff, h]
  exact Option.some_ne_none installer

theorem refusal_of_isRecognized (h : dialect.IsRecognized) :
    dialect.refusal = .noAnchor dialect := by
  unfold refusal
  split
  · exact absurd rfl h.1
  · exact absurd rfl h.2
  · rfl

theorem mem_all_of_installer? (h : (ofText platform t).installer? = some installer) :
    installer ∈ Installer.all ∧ installer.platform = platform := by
  cases platform with
  | android => exact Installer.mem_all_of_android h
  | ios => exact Installer.mem_all_of_ios h

end Dialect

namespace Outcome

/-! ## How an outcome comes about -/

/-- The outcomes for a text of the platform: it has its hook, the installer of its dialect is
applied, or its dialect is unknown, which ends the matter on one platform and leads to guesses on
the other. -/
inductive Arises (platform : Platform) (fileName : String) (t : Text) : Outcome → Prop where
  | installed (here : platform.isInstalled t = true) :
      Arises platform fileName t (.installed fileName (.ofText platform t) t)
  | known {installer : Installer} (absent : platform.isInstalled t = false)
      (own : (Dialect.ofText platform t).installer? = some installer) :
      Arises platform fileName t (.ofInstaller fileName (.ofText platform t) installer t)
  | unknownMainApplication (absent : platform.isInstalled t = false)
      (unknown : Dialect.ofText platform t = .android .unrecognized) :
      Arises platform fileName t
        (.refused fileName (.ofText platform t) t .unknownMainApplication)
  | unknownAppDelegate (absent : platform.isInstalled t = false)
      (unknown : Dialect.ofText platform t = .ios .unrecognized) :
      Arises platform fileName t (.ofGuesses fileName t guesses)

theorem arises_ofEntry (platform : Platform) (fileName : String) (t : Text) :
    Arises platform fileName t (ofEntry platform fileName t) := by
  cases platform with
  | android =>
      simp only [ofEntry, ofMainApplication]
      split
      · next here => exact .installed here
      · next hnot =>
        have absent := Bool.eq_false_iff.2 hnot
        split
        · next installer own => exact .known absent own
        · next hnone =>
          exact .unknownMainApplication absent
            (congrArg _ (AndroidDialect.installer?_eq_none.1 hnone))
  | ios =>
      simp only [ofEntry, ofAppDelegate]
      split
      · next here => exact .installed here
      · next hnot =>
        have absent := Bool.eq_false_iff.2 hnot
        split
        · next installer own => exact .known absent own
        · next hnone =>
          exact .unknownAppDelegate absent (congrArg _ (IosDialect.installer?_eq_none.1 hnone))

/-- The guesses in order: a language that changes the text is named in a warning. -/
theorem ofGuesses_cases (fileName : String) (t : Text) :
    (Installer.swift.apply t ≠ t ∧ ofGuesses fileName t guesses =
        .patched fileName (.ios .unrecognized) (Installer.swift.apply t)
          [⟨.warning, fileName, (Difficulty.guessed "Swift").message⟩]) ∨
      (Installer.swift.apply t = t ∧ Installer.objectiveC.apply t ≠ t ∧
        ofGuesses fileName t guesses =
          .patched fileName (.ios .unrecognized) (Installer.objectiveC.apply t)
            [⟨.warning, fileName, (Difficulty.guessed "Objective-C").message⟩]) ∨
      (Installer.swift.apply t = t ∧ Installer.objectiveC.apply t = t ∧
        ofGuesses fileName t guesses =
          .refused fileName (.ios .unrecognized) t .unknownAppDelegate) := by
  by_cases hswift : Installer.swift.apply t = t
  · by_cases hobjectiveC : Installer.objectiveC.apply t = t
    · exact .inr (.inr ⟨hswift, hobjectiveC, by simp [ofGuesses, guesses, hswift, hobjectiveC]⟩)
    · exact .inr (.inl ⟨hswift, hobjectiveC, by simp [ofGuesses, guesses, hswift, hobjectiveC]⟩)
  · exact .inl ⟨hswift, by simp [ofGuesses, guesses, hswift]⟩

/-! ## Shapes -/

/-- What an outcome can look like. -/
inductive Shape where
  /-- The hook was there before. -/
  | installed
  /-- The hook is there now. -/
  | patched
  /-- There is no hook. -/
  | refused

/-- The one message of the outcome is the warning about this difficulty. -/
def WarnsOnly (outcome : Outcome) (why : Difficulty) : Prop :=
  outcome.diagnostics = [⟨.warning, outcome.fileName, why.message⟩]

/-- The outcome for a text of the platform has this shape. -/
def HasShape (platform : Platform) (t : Text) (outcome : Outcome) : Shape → Prop
  | .installed =>
      platform.isInstalled t = true ∧
        outcome.alreadyPatched = true ∧ outcome.changed = false ∧ outcome.contents = t ∧
        outcome.diagnostics = []
  | .patched =>
      platform.isInstalled t = false ∧ platform.isInstalled outcome.contents = true ∧
        outcome.alreadyPatched = false ∧ outcome.changed = true ∧
        (outcome.dialect.IsRecognized ∧ outcome.diagnostics = [] ∨
          outcome.dialect = .ios .unrecognized ∧
            ∃ language ∈ ["Swift", "Objective-C"], outcome.WarnsOnly (.guessed language))
  | .refused =>
      platform.isInstalled t = false ∧ platform.isInstalled outcome.contents = false ∧
        outcome.alreadyPatched = false ∧ outcome.changed = false ∧ outcome.contents = t ∧
        outcome.WarnsOnly outcome.dialect.refusal

variable {platform : Platform} {fileName : String} {t : Text}

/-- The two marks of an outcome tell its shape. -/
theorem HasShape.eq_of_marks {outcome : Outcome} {shape : Shape}
    (h : outcome.HasShape platform t shape) :
    shape = if outcome.alreadyPatched then .installed
      else if outcome.changed then .patched else .refused := by
  cases shape with
  | installed => rw [if_pos h.2.1]
  | patched => rw [if_neg (by simp [h.2.2.1]), if_pos h.2.2.2.1]
  | refused => rw [if_neg (by simp [h.2.2.1]), if_neg (by simp [h.2.2.2.1])]

/-- An installer of the platform that changes the text puts the hook there. -/
theorem hasShape_patched {installer : Installer} {dialect : Dialect} {diagnostics : List Diagnostic}
    (own : installer ∈ Installer.all ∧ installer.platform = platform)
    (changes : installer.apply t ≠ t)
    (messages : dialect.IsRecognized ∧ diagnostics = [] ∨
      dialect = .ios .unrecognized ∧ ∃ language ∈ ["Swift", "Objective-C"],
        diagnostics = [⟨.warning, fileName, (Difficulty.guessed language).message⟩]) :
    (patched fileName dialect (installer.apply t) diagnostics).HasShape platform t .patched := by
  obtain ⟨hmem, rfl⟩ := own
  obtain ⟨habsent, hinstalled⟩ := (Installer.installsHook_of_mem_all hmem).of_apply_ne changes
  exact ⟨habsent, hinstalled, rfl, rfl, messages⟩

theorem hasShape_refused {dialect : Dialect} {why : Difficulty}
    (absent : platform.isInstalled t = false) (hwhy : why = dialect.refusal) :
    (refused fileName dialect t why).HasShape platform t .refused := by
  subst hwhy
  exact ⟨absent, absent, rfl, rfl, rfl, rfl⟩

theorem Arises.exists_shape {outcome : Outcome} (h : Arises platform fileName t outcome) :
    ∃ shape, outcome.HasShape platform t shape := by
  cases h with
  | installed here => exact ⟨.installed, here, rfl, rfl, rfl, rfl⟩
  | @known installer absent own =>
      have hknown := Dialect.isRecognized_of_installer? own
      unfold ofInstaller
      simp only
      split
      · exact ⟨.refused, hasShape_refused absent (Dialect.refusal_of_isRecognized hknown).symm⟩
      · next changes =>
        exact ⟨.patched, hasShape_patched (Dialect.mem_all_of_installer? own) changes
          (.inl ⟨hknown, rfl⟩)⟩
  | unknownMainApplication absent unknown =>
      exact ⟨.refused, hasShape_refused absent (by rw [unknown]; rfl)⟩
  | unknownAppDelegate absent unknown =>
      have hios : platform = .ios := by
        cases platform with
        | android => cases unknown
        | ios => rfl
      subst hios
      rcases ofGuesses_cases fileName t with ⟨changes, heq⟩ | ⟨-, changes, heq⟩ | ⟨-, -, heq⟩ <;>
        rw [heq]
      · exact ⟨.patched, hasShape_patched ⟨by simp [Installer.all], rfl⟩ changes
          (.inr ⟨rfl, "Swift", by simp, rfl⟩)⟩
      · exact ⟨.patched, hasShape_patched ⟨by simp [Installer.all], rfl⟩ changes
          (.inr ⟨rfl, "Objective-C", by simp, rfl⟩)⟩
      · exact ⟨.refused, hasShape_refused absent rfl⟩

/-! ## Whose work the contents are -/

theorem Arises.isOf {outcome : Outcome} (h : Arises platform fileName t outcome) :
    outcome.fileName = fileName ∧ outcome.dialect = .ofText platform t := by
  cases h with
  | installed => exact ⟨rfl, rfl⟩
  | known =>
      unfold ofInstaller
      simp only
      split <;> exact ⟨rfl, rfl⟩
  | unknownMainApplication => exact ⟨rfl, rfl⟩
  | unknownAppDelegate absent unknown =>
      rcases ofGuesses_cases fileName t with ⟨-, heq⟩ | ⟨-, -, heq⟩ | ⟨-, -, heq⟩ <;>
        rw [heq, unknown] <;> exact ⟨rfl, rfl⟩

/-- The contents for a known dialect are what its installer answers, also when that is the text
itself. -/
theorem Arises.contents_of_known {outcome : Outcome} (h : Arises platform fileName t outcome)
    {installer : Installer} (own : (Dialect.ofText platform t).installer? = some installer) :
    outcome.contents = installer.apply t := by
  have hunknown {dialect : Dialect} (hnone : dialect.installer? = none)
      (heq : Dialect.ofText platform t = dialect) : False := by
    rw [heq, hnone] at own
    cases own
  cases h with
  | installed here =>
      obtain ⟨-, rfl⟩ := Dialect.mem_all_of_installer? own
      exact (Installer.apply_of_isInstalled here).symm
  | known absent own' =>
      obtain rfl := Option.some.inj (own.symm.trans own')
      unfold ofInstaller
      simp only
      split
      · next heq => exact heq.symm
      · rfl
  | unknownMainApplication absent unknown => exact (hunknown rfl unknown).elim
  | unknownAppDelegate absent unknown => exact (hunknown rfl unknown).elim

/-- The contents for an AppDelegate of no known dialect are those of the first language that
changes the text. -/
theorem Arises.contents_of_unknown {outcome : Outcome} (h : Arises platform fileName t outcome)
    (unknown : Dialect.ofText platform t = .ios .unrecognized) :
    outcome.contents =
      if Installer.swift.apply t ≠ t then Installer.swift.apply t
      else Installer.objectiveC.apply t := by
  cases h with
  | installed here =>
      cases platform with
      | android => cases unknown
      | ios =>
          have hswift : Installer.swift.apply t = t := Installer.apply_of_isInstalled here
          rw [if_neg (not_not_intro hswift)]
          exact (Installer.apply_of_isInstalled here : Installer.objectiveC.apply t = t).symm
  | known absent own =>
      rw [unknown] at own
      cases own
  | unknownMainApplication absent unknown' => cases unknown.symm.trans unknown'
  | unknownAppDelegate =>
      rcases ofGuesses_cases fileName t with ⟨hswift, heq⟩ | ⟨hswift, -, heq⟩ | ⟨hswift, hsame, heq⟩
        <;> rw [heq]
      · rw [if_pos hswift]
        rfl
      · rw [if_neg (not_not_intro hswift)]
        rfl
      · rw [if_neg (not_not_intro hswift), hsame]
        rfl

/-- A message of an outcome of one of the shapes is a warning about its file. -/
theorem HasShape.warns {outcome : Outcome} {shape : Shape} (h : outcome.HasShape platform t shape) :
    ∀ diagnostic ∈ outcome.diagnostics,
      diagnostic.severity = .warning ∧ diagnostic.fileName = outcome.fileName := by
  have hnone (hmessage : outcome.diagnostics = []) : ∀ diagnostic ∈ outcome.diagnostics,
      diagnostic.severity = .warning ∧ diagnostic.fileName = outcome.fileName := by simp [hmessage]
  have hone {why : Difficulty} (hmessage : outcome.WarnsOnly why) :
      ∀ diagnostic ∈ outcome.diagnostics,
        diagnostic.severity = .warning ∧ diagnostic.fileName = outcome.fileName := by
    unfold WarnsOnly at hmessage
    simp [hmessage]
  cases shape with
  | installed => exact hnone h.2.2.2.2
  | patched =>
      rcases h.2.2.2.2 with ⟨-, hmessage⟩ | ⟨-, _, -, hmessage⟩
      · exact hnone hmessage
      · exact hone hmessage
  | refused => exact hone h.2.2.2.2.2

/-- A changed text differs from what it was: it has the hook that was not there. -/
theorem HasShape.changed_iff {outcome : Outcome} {shape : Shape}
    (h : outcome.HasShape platform t shape) : outcome.changed = true ↔ outcome.contents ≠ t := by
  cases shape with
  | installed => simp [h.2.2.1, h.2.2.2.1]
  | patched =>
      refine iff_of_true h.2.2.2.1 fun heq => ?_
      have hinstalled := h.2.1
      rw [heq, h.1] at hinstalled
      cases hinstalled
  | refused => simp [h.2.2.2.1, h.2.2.2.2.1]

end Outcome

/-! ## The shape of every outcome -/

/-- An outcome has exactly one of the three shapes, bears the name and the dialect of its file and
warns of nothing else, and is marked as changed when its contents differ from the text. The contents
are what the installer of the dialect answers; where an AppDelegate has no known dialect, what the
Swift installer answers if that changes the text, and else what the Objective-C installer
answers. -/
theorem outcome_has_one_shape (platform : Platform) (fileName : String) (t : Text) :
    let outcome := Outcome.ofEntry platform fileName t
    let dialect := Dialect.ofText platform t
    (∃! shape, outcome.HasShape platform t shape) ∧
    outcome.fileName = fileName ∧ outcome.dialect = dialect ∧
    (∀ diagnostic ∈ outcome.diagnostics,
      diagnostic.severity = .warning ∧ diagnostic.fileName = fileName) ∧
    (outcome.changed = true ↔ outcome.contents ≠ t) ∧
    (dialect.IsRecognized →
      ∃ installer, dialect.installer? = some installer ∧ outcome.contents = installer.apply t) ∧
    (dialect = .ios .unrecognized →
      outcome.contents =
        if Installer.swift.apply t ≠ t then Installer.swift.apply t
        else Installer.objectiveC.apply t) := by
  intro outcome dialect
  have harises : Outcome.Arises platform fileName t outcome :=
    Outcome.arises_ofEntry platform fileName t
  obtain ⟨shape, hshape⟩ := harises.exists_shape
  obtain ⟨hname, hdialect⟩ := harises.isOf
  refine ⟨⟨shape, hshape, fun other hother => ?_⟩, hname, hdialect, ?_, hshape.changed_iff, ?_,
    harises.contents_of_unknown⟩
  · rw [hother.eq_of_marks, hshape.eq_of_marks]
  · rw [← hname]
    exact hshape.warns
  · intro hknown
    obtain ⟨installer, own⟩ := Option.ne_none_iff_exists'.1 (Dialect.isRecognized_iff.1 hknown)
    exact ⟨installer, own, harises.contents_of_known own⟩

/-- A delegate without any import is patched as Swift by a guess, and an application class of a
known dialect by its own installer. -/
theorem outcome_has_one_shape_emptyClasses :
    Dialect.ofText .ios "class AppDelegate \x7b\x7d".toList = .ios .unrecognized ∧
      Installer.swift.apply "class AppDelegate \x7b\x7d".toList ≠
        "class AppDelegate \x7b\x7d".toList ∧
      (Outcome.ofEntry .ios "AppDelegate" "class AppDelegate \x7b\x7d".toList).contents =
        Installer.swift.apply "class AppDelegate \x7b\x7d".toList ∧
      (Outcome.ofEntry .ios "AppDelegate" "class AppDelegate \x7b\x7d".toList).changed = true ∧
      (Dialect.ofText .android "class MainApplication \x7b\x7d".toList).IsRecognized ∧
      ∃ installer,
        (Dialect.ofText .android "class MainApplication \x7b\x7d".toList).installer? =
          some installer ∧
        (Outcome.ofEntry .android "Main" "class MainApplication \x7b\x7d".toList).contents =
          installer.apply "class MainApplication \x7b\x7d".toList := by
  obtain ⟨-, -, -, -, hchanged, -, hguess⟩ :=
    outcome_has_one_shape .ios "AppDelegate" "class AppDelegate \x7b\x7d".toList
  obtain ⟨-, -, -, -, -, hown, -⟩ :=
    outcome_has_one_shape .android "Main" "class MainApplication \x7b\x7d".toList
  have hios : Dialect.ofText .ios "class AppDelegate \x7b\x7d".toList = .ios .unrecognized := by
    decide
  have hswift : Installer.swift.apply "class AppDelegate \x7b\x7d".toList ≠
      "class AppDelegate \x7b\x7d".toList := by decide
  have hcontents := (hguess hios).trans (if_pos hswift)
  have hknown : (Dialect.ofText .android "class MainApplication \x7b\x7d".toList).IsRecognized := by
    have hjava : Dialect.ofText .android "class MainApplication \x7b\x7d".toList =
        .android .javaHost := by decide
    rw [hjava]
    exact ⟨by decide, by decide⟩
  exact ⟨hios, hswift, hcontents, hchanged.2 (by rwa [hcontents]), hknown, hown hknown⟩

end BundleHook
