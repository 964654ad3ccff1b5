import BundleHook.Entry.Installed
import BundleHook.Proofs.Code.Taking
import BundleHook.Proofs.Entry.Openings

/-!
# The marks of an installed hook

The guard of a delegate looks for three marks: the opening of a conditional on the debug flag, the
name of the development bundle, and an `#else` with the answer of Stallion behind it, with no
`#endif` in the text between them. `GuardMarks` says where they stand.

* `isInstalled_ios_iff` — the guard holds exactly when the three marks stand in the text.
-/

namespace BundleHook.Entry

open Text Code Code.Pattern

theorem opens_head_word {w : String} {c : Char} (hc : w.toList.head? = some c) :
    Opens (fun t => t.head? = some c) (word w) := by
  intro before here q hmatches
  obtain ⟨rest, rfl, -⟩ := matches_text_iff.1 hmatches
  rw [List.head?_append, hc, Option.some_or]

theorem Opens.getElem?_of_matchesAt {pattern : Pattern} {c : Char}
    (h : Opens (fun t => t.head? = some c) pattern) {t : Text} {span : Span}
    (hmatches : pattern.MatchesAt t span) : t[span.start]? = some c := by
  rw [← List.head?_drop]
  exact h.of_matchesAt hmatches

/-! ## The marks -/

/-- The opening of a conditional on the debug flag. -/
def debugWords : Pattern := word "#if" ++ maybe (word "def") ++ indentGap ++ word "DEBUG"

/-- The name of the development bundle. -/
def bundleName : Pattern := word ".expo/.virtual-metro-entry"

/-- An `#else` whose branch begins with the answer of Stallion. -/
def elseAnswer : Pattern :=
  word "#else" ++ (gap ++ (word "return" ++ (gap ++
    either (word "StallionModule.getBundleURL" ++ iosInstalledPattern.noArguments)
      (word "[" ++ blanks ++ word "StallionModule" ++ gap ++ word "getBundleURL" ++ blanks ++
        word "]"))))

def endMark : Text := "#endif".toList

/-- No end of a conditional begins between two offsets. -/
structure Unended (t : Text) (i j : Nat) : Prop where
  le : i ≤ j
  outside : ∀ k, i ≤ k → k < j → ¬endMark <+: t.drop k

/-- The marks that the guard of a delegate looks for. -/
structure GuardMarks (t : Text) (opening name answer : Span) : Prop where
  opens : (debugWords ++ edge).MatchesAt t opening
  names : bundleName.MatchesAt t name
  answers : elseAnswer.MatchesAt t answer
  beforeName : Unended t opening.stop name.start
  beforeAnswer : Unended t name.stop answer.start

namespace GuardMarks

variable {t : Text} {opening name answer : Span} (h : GuardMarks t opening name answer)
include h

theorem opening_head : t[opening.start]? = some '#' := by
  have hopens : Opens (fun t => t.head? = some '#') (debugWords ++ edge) := by
    iterate 4 apply Opens.both
    exact opens_head_word rfl
  exact hopens.getElem?_of_matchesAt h.opens

theorem name_head : t[name.start]? = some '.' :=
  (opens_head_word (w := ".expo/.virtual-metro-entry") rfl).getElem?_of_matchesAt h.names

theorem answer_head : t[answer.start]? = some '#' := by
  have hanswers : Opens (fun t => t.head? = some '#') elseAnswer := (opens_head_word rfl).both
  exact hanswers.getElem?_of_matchesAt h.answers

end GuardMarks

theorem matchesAt_short_endMark_iff {t : Text} {i j : Nat} (hj : j ≤ t.length) :
    (short endMark).MatchesAt t ⟨i, j⟩ ↔ Unended t i j := by
  rw [matchesAt_short_iff]
  exact ⟨fun h => ⟨h.1, h.2.2⟩, fun h => ⟨h.le, hj, h.outside⟩⟩

theorem matchesAt_iosInstalledPattern_iff {t : Text} {span : Span} :
    iosInstalledPattern.MatchesAt t span ↔
      ∃ opening name answer, GuardMarks t opening name answer ∧
        opening.start = span.start ∧ answer.stop = span.stop := by
  have hassoc : iosInstalledPattern.MatchesAt t span ↔
      (debugWords ++ edge ++ short endMark ++ bundleName ++ short endMark ++
        elseAnswer).MatchesAt t span := by
    simp only [iosInstalledPattern, debugWords, bundleName, elseAnswer, endMark,
      matchesAt_append_assoc]
  rw [hassoc]
  constructor
  · intro h
    obtain ⟨answerStart, h, hanswers⟩ := matchesAt_both h
    obtain ⟨nameStop, h, hafter⟩ := matchesAt_both h
    obtain ⟨nameStart, h, hnames⟩ := matchesAt_both h
    obtain ⟨openingStop, hopens, hbefore⟩ := matchesAt_both h
    exact ⟨⟨span.start, openingStop⟩, ⟨nameStart, nameStop⟩, ⟨answerStart, span.stop⟩,
      ⟨hopens, hnames, hanswers, (matchesAt_short_endMark_iff hbefore.2.1).1 hbefore,
        (matchesAt_short_endMark_iff hafter.2.1).1 hafter⟩, rfl, rfl⟩
  · rintro ⟨opening, name, answer, ⟨hopens, hnames, hanswers, hbefore, hafter⟩, hstart, hstop⟩
    have hname := Nat.le_trans hnames.1 hnames.2.1
    have hanswer := Nat.le_trans hanswers.1 hanswers.2.1
    obtain ⟨start, stop⟩ := span
    obtain rfl : opening.start = start := hstart
    obtain rfl : answer.stop = stop := hstop
    refine matchesAt_both_iff.2 ⟨answer.start, ?_, hanswers⟩
    refine matchesAt_both_iff.2 ⟨name.stop, ?_, (matchesAt_short_endMark_iff hanswer).2 hafter⟩
    refine matchesAt_both_iff.2 ⟨name.start, ?_, hnames⟩
    exact matchesAt_both_iff.2
      ⟨opening.stop, hopens, (matchesAt_short_endMark_iff hname).2 hbefore⟩

/-- The guard of a delegate holds exactly when its three marks stand in the text. -/
theorem isInstalled_ios_iff {t : Text} :
    Platform.ios.isInstalled t = true ↔ ∃ opening name answer, GuardMarks t opening name answer := by
  rw [Platform.isInstalled, occursIn_iff_matchesAt]
  constructor
  · rintro ⟨span, h⟩
    obtain ⟨opening, name, answer, hmarks, -⟩ := matchesAt_iosInstalledPattern_iff.1 h
    exact ⟨opening, name, answer, hmarks⟩
  · rintro ⟨opening, name, answer, h⟩
    exact ⟨⟨opening.start, answer.stop⟩,
      matchesAt_iosInstalledPattern_iff.2 ⟨opening, name, answer, h, rfl, rfl⟩⟩

end BundleHook.Entry
