import BundleHook.Code.Declaration
import BundleHook.Proofs.Code.Comments
import BundleHook.Proofs.Entry.GuardMarks

/-!
# Hooks in comments

The guards and the search for a declaration read a text as it stands, comments and literals with the
code. So a hook in a comment counts as installed and a declaration in a comment is found; what the
guards find is still there without the comments when its marks stand in code.

* `MatchesAt.withoutComments` — a stretch outside comments survives the blanking of comments;
* `hook_found_in_code` — when the answers do not depend on comments and literals.
-/

namespace BundleHook

open Text Code Code.Pattern Entry

/-! ## Stretches outside comments -/

namespace Code

/-- A part of a text that starts outside comments and holds no slash lies outside comments. -/
theorem not_inComment_of_no_slash {t : Text} {i stop : Nat} (hi : ¬InComment t i)
    (hslash : ∀ c ∈ slice t i stop, c ≠ '/') {j : Nat} (hle : i ≤ j) (hj : j < stop) :
    ¬InComment t j := by
  refine not_inComment_of_slice hi (fun k hik hk => ?_) hle hj
  refine Bool.eq_false_iff.2 fun hopens => ?_
  have hc := (opensComment_iff.1 hopens).1
  rw [List.head?_drop] at hc
  exact hslash '/' (mem_slice_of_getElem? hc (Nat.le_of_lt hik) hk) rfl

/-- What stands in both texts at the place of a visible character is code or a literal. -/
theorem not_inComment_of_visible {t : Text} {i : Nat} {c : Char}
    (h : (withoutComments t)[i]? = some c) (hc : isBlank c = false) : ¬InComment t i := by
  intro hin
  rw [isBlank_of_inComment hin h] at hc
  cases hc

/-- A word without a space that stands in the blanked text stands in the text. -/
theorem prefix_of_withoutComments {t w : Text} {k : Nat} (hw : ' ' ∉ w)
    (h : w <+: (withoutComments t).drop k) : w <+: t.drop k := by
  rw [List.prefix_iff_getElem?] at h ⊢
  intro i hi
  have hc := h i hi
  rw [List.getElem?_drop] at hc ⊢
  exact getElem?_of_withoutComments hc fun heq => hw (heq ▸ List.getElem_mem hi)

namespace Pattern

variable {pattern : Pattern} {t : Text} {span : Span}

theorem MatchesAt.withoutComments (h : pattern.MatchesAt t span) (hfree : pattern.IsFree)
    (hclear : ∀ j, span.start ≤ j → j < span.stop → ¬InComment t j) :
    pattern.MatchesAt (Code.withoutComments t) span :=
  h.of_slice_eq hfree (length_withoutComments t) (slice_withoutComments hclear)

/-- A pattern that takes no slash is matched in the blanked text wherever it starts outside
comments. -/
theorem MatchesAt.withoutComments_of_no_slash (h : pattern.MatchesAt t span)
    (hfree : pattern.IsFree) (hslash : pattern.TakesOnly (· ≠ '/'))
    (hstart : ¬InComment t span.start) : pattern.MatchesAt (Code.withoutComments t) span :=
  h.withoutComments hfree fun _ =>
    not_inComment_of_no_slash hstart (hslash.mem_slice h)

end Pattern

end Code

/-! ## The guards -/

namespace Entry

theorem isFree_androidInstalledPattern : androidInstalledPattern.IsFree := by
  simp only [androidInstalledPattern, IsFree.append_iff, IsFree.maybe_iff, IsFree.word,
    IsFree.blanks, IsFree.gap, and_self]

/-- The pattern takes no slash. -/
abbrev TakesNoSlash (pattern : Pattern) : Prop := pattern.TakesOnly (· ≠ '/')

theorem takesNoSlash_blanks : TakesNoSlash blanks := by
  rintro c h rfl
  revert h
  decide

theorem takesNoSlash_gap : TakesNoSlash gap := ⟨takesNoSlash_blanks, takesNoSlash_blanks⟩

theorem takesNoSlash_androidInstalledPattern : TakesNoSlash androidInstalledPattern := by
  simp only [TakesNoSlash, androidInstalledPattern, TakesOnly.append_iff, TakesOnly.maybe_iff,
    TakesOnly.word_iff, takesNoSlash_blanks, takesNoSlash_gap]
  decide

theorem opens_androidInstalledPattern :
    Opens (fun t => t.head? = some 'i') androidInstalledPattern := by
  unfold androidInstalledPattern
  iterate 24 apply Opens.both
  exact opens_head_word rfl

theorem isInstalled_android_withoutComments_iff {t : Text} :
    Platform.android.isInstalled (withoutComments t) = true ↔
      (∃ span, androidInstalledPattern.MatchesAt t span ∧ ¬InComment t span.start) ∨
        ∃ span, androidInstalledPattern.MatchesAt (withoutComments t) span ∧
          ¬androidInstalledPattern.MatchesAt t span := by
  rw [Platform.isInstalled, occursIn_iff_matchesAt]
  constructor
  · rintro ⟨span, h⟩
    by_cases hold : androidInstalledPattern.MatchesAt t span
    · exact .inl ⟨span, hold, not_inComment_of_visible
        (opens_androidInstalledPattern.getElem?_of_matchesAt h) (by decide)⟩
    · exact .inr ⟨span, h, hold⟩
  · rintro (⟨span, h, hstart⟩ | ⟨span, h, -⟩)
    · exact ⟨span, h.withoutComments_of_no_slash isFree_androidInstalledPattern
        takesNoSlash_androidInstalledPattern hstart⟩
    · exact ⟨span, h⟩

theorem isFree_debugWords : debugWords.IsFree := by
  simp only [debugWords, IsFree.append_iff, IsFree.maybe_iff, IsFree.word, IsFree.indentGap,
    and_self]

theorem takesNoSlash_debugWords : TakesNoSlash debugWords := by
  have hindent : TakesNoSlash indentGap := by
    refine ⟨?_, ?_⟩ <;> (rintro c h rfl; revert h; decide)
  simp only [TakesNoSlash, debugWords, TakesOnly.append_iff, TakesOnly.maybe_iff,
    TakesOnly.word_iff, hindent]
  decide

theorem isFree_elseAnswer : elseAnswer.IsFree := by
  have heither : ∀ first second : Pattern, first.IsFree → second.IsFree →
    (either first second).IsFree := fun _ _ => And.intro
  simp only [elseAnswer, iosInstalledPattern.noArguments, IsFree.append_iff, IsFree.word,
    IsFree.blanks, IsFree.gap, and_self, heither]

theorem takesNoSlash_elseAnswer : TakesNoSlash elseAnswer := by
  have heither : ∀ first second : Pattern, TakesNoSlash (either first second) ↔
    TakesNoSlash first ∧ TakesNoSlash second := fun _ _ => Iff.rfl
  simp only [TakesNoSlash, elseAnswer, iosInstalledPattern.noArguments, TakesOnly.append_iff,
    TakesOnly.word_iff, takesNoSlash_blanks, takesNoSlash_gap, heither]
  decide

/-- The slash in the name of the bundle begins no comment. -/
theorem not_inComment_bundleName {t : Text} {span : Span} (h : bundleName.MatchesAt t span)
    (hstart : ¬InComment t span.start) {j : Nat} (hle : span.start ≤ j) (hj : j < span.stop) :
    ¬InComment t j := by
  obtain ⟨hstop, hchars⟩ := getElem?_of_matchesAt_text h
  have hslash : ∀ n < ".expo/.virtual-metro-entry".toList.length,
      ".expo/.virtual-metro-entry".toList[n]? = some '/' →
        n + 1 < ".expo/.virtual-metro-entry".toList.length ∧
          ".expo/.virtual-metro-entry".toList[n + 1]? = some '.' := by
    decide
  refine not_inComment_of_slice hstart (fun k hk hlt => Bool.eq_false_iff.2 fun hopens => ?_) hle hj
  obtain ⟨n, rfl⟩ := Nat.exists_eq_add_of_le (Nat.le_of_lt hk)
  obtain ⟨hhead, hnext⟩ := opensComment_iff.1 hopens
  rw [List.head?_drop, hchars n (by omega)] at hhead
  obtain ⟨hn, hdot⟩ := hslash n (by omega) hhead
  rw [List.getElem?_drop, Nat.add_assoc, hchars (n + 1) hn, hdot] at hnext
  revert hnext
  decide

/-- The opening behind which no word goes on is one in the blanked text too. -/
theorem debugWords_withoutComments {t : Text} {opening : Span}
    (h : (debugWords ++ edge).MatchesAt t opening) (hstart : ¬InComment t opening.start) :
    (debugWords ++ edge).MatchesAt (withoutComments t) opening := by
  obtain ⟨start, stop⟩ := opening
  obtain ⟨middle, hwords, hedge⟩ := matchesAt_both h
  obtain ⟨hstop, hlength, hisEdge⟩ := matchesAt_edge_iff.1 hedge
  obtain rfl : stop = middle := hstop
  obtain ⟨last, hfront, hlast⟩ := matchesAt_both hwords
  obtain ⟨hlastStop, hchars⟩ := getElem?_of_matchesAt_text hlast
  obtain rfl : stop = last + 4 + 1 := hlastStop
  have hle : start ≤ last + 4 := Nat.le_add_right_of_le hfront.1
  have hchar : t[last + 4]? = some 'G' := hchars 4 (by decide)
  have hclear : ¬InComment t (last + 4) :=
    not_inComment_of_no_slash hstart (takesNoSlash_debugWords.mem_slice hwords) hle
      (Nat.lt_succ_self _)
  have hchar' : (withoutComments t)[last + 4]? = some 'G' := by
    rw [getElem?_withoutComments_of_not_inComment hclear, hchar]
  -- a word character behind the mark would stand there in the text itself
  have hbehind : (withoutComments t)[last + 4 + 1]?.any isWord = false := by
    have hnone := (isEdge_behind_iff hchar (by decide)).1 hisEdge
    refine Bool.eq_false_iff.2 fun hany => ?_
    obtain ⟨c, hc, hword⟩ := (Option.any_eq_true _ _).1 hany
    have hold := getElem?_of_withoutComments hc (by rintro rfl; revert hword; decide)
    rw [hold, Option.any_some, hword] at hnone
    cases hnone
  refine matchesAt_both_iff.2 ⟨last + 4 + 1, ?_, ?_⟩
  · exact hwords.withoutComments_of_no_slash isFree_debugWords takesNoSlash_debugWords hstart
  · exact matchesAt_edge_iff.2 ⟨rfl, by rwa [length_withoutComments],
      (isEdge_behind_iff hchar' (by decide)).2 hbehind⟩

namespace GuardMarks

variable {t : Text} {opening name answer : Span}

/-- Marks that start outside comments stand in the blanked text too. -/
theorem withoutComments (h : GuardMarks t opening name answer)
    (hopening : ¬InComment t opening.start) (hname : ¬InComment t name.start)
    (hanswer : ¬InComment t answer.start) :
    GuardMarks (withoutComments t) opening name answer where
  opens := debugWords_withoutComments h.opens hopening
  names := h.names.withoutComments (IsFree.word _) fun _ => not_inComment_bundleName h.names hname
  answers := h.answers.withoutComments_of_no_slash isFree_elseAnswer takesNoSlash_elseAnswer hanswer
  beforeName := ⟨h.beforeName.le, fun k hi hj hend =>
    h.beforeName.outside k hi hj (prefix_of_withoutComments (by decide) hend)⟩
  beforeAnswer := ⟨h.beforeAnswer.le, fun k hi hj hend =>
    h.beforeAnswer.outside k hi hj (prefix_of_withoutComments (by decide) hend)⟩

end GuardMarks

theorem isInstalled_ios_withoutComments_iff {t : Text} :
    Platform.ios.isInstalled (withoutComments t) = true ↔
      (∃ opening name answer, GuardMarks t opening name answer ∧ ¬InComment t opening.start ∧
          ¬InComment t name.start ∧ ¬InComment t answer.start) ∨
        ∃ opening name answer, GuardMarks (withoutComments t) opening name answer ∧
          ¬GuardMarks t opening name answer := by
  rw [isInstalled_ios_iff]
  constructor
  · rintro ⟨opening, name, answer, h⟩
    by_cases hold : GuardMarks t opening name answer
    · exact .inl ⟨opening, name, answer, hold, not_inComment_of_visible h.opening_head (by decide),
        not_inComment_of_visible h.name_head (by decide),
        not_inComment_of_visible h.answer_head (by decide)⟩
    · exact .inr ⟨opening, name, answer, h, hold⟩
  · rintro (⟨opening, name, answer, h, hopening, hname, hanswer⟩ | ⟨opening, name, answer, h, -⟩)
    · exact ⟨opening, name, answer, h.withoutComments hopening hname hanswer⟩
    · exact ⟨opening, name, answer, h⟩

end Entry

/-! ## Declarations -/

namespace Code

/-- The first declaration with a body whose signature begins outside comments and literals. -/
def firstDeclarationInCode (t : Text) (signature : Pattern) : Option Span :=
  ((signature.stretches t).filter fun stretch => ¬InLiteral t stretch.start).findSome?
    (declarationAt t)

theorem start_of_declarationAt {t : Text} {stretch span : Span}
    (h : declarationAt t stretch = some span) : span.start = stretch.start := by
  obtain ⟨stop, -, rfl⟩ := Option.map_eq_some_iff.1 h
  rfl

/-- What the search for a declaration answers begins in code exactly when it is the first
declaration in code. -/
theorem firstDeclaration_in_code_iff {t : Text} {signature : Pattern} {span : Span}
    (h : firstDeclaration t signature = some span) :
    ¬InLiteral t span.start ↔ firstDeclarationInCode t signature = some span := by
  obtain ⟨before, stretch, after, hsplit, hbody, hbefore⟩ := List.findSome?_eq_some_iff.1 h
  constructor
  · intro hcode
    rw [start_of_declarationAt hbody] at hcode
    rw [firstDeclarationInCode, hsplit, List.filter_append, List.filter_cons_of_pos (by simpa)]
    exact List.findSome?_eq_some_iff.2 ⟨_, stretch, _, rfl, hbody,
      fun other hother => hbefore other (List.mem_filter.1 hother).1⟩
  · intro hfound
    obtain ⟨before, stretch, after, hsplit, hbody, -⟩ := List.findSome?_eq_some_iff.1 hfound
    have hmem : stretch ∈ (signature.stretches t).filter fun s => ¬InLiteral t s.start := by
      rw [hsplit]
      exact List.mem_append_right _ List.mem_cons_self
    rw [start_of_declarationAt hbody]
    exact of_decide_eq_true (List.mem_filter.1 hmem).2

end Code

/-- The guards find a hook without the comments exactly when its marks begin outside comments or the
blanking itself has made one; and a declaration is found in code exactly when it is the first one
there. -/
theorem hook_found_in_code (t : Text) :
    (Platform.android.isInstalled (withoutComments t) = true ↔
      (∃ span, androidInstalledPattern.MatchesAt t span ∧ ¬InComment t span.start) ∨
        ∃ span, androidInstalledPattern.MatchesAt (withoutComments t) span ∧
          ¬androidInstalledPattern.MatchesAt t span) ∧
    (Platform.ios.isInstalled (withoutComments t) = true ↔
      (∃ opening name answer, GuardMarks t opening name answer ∧ ¬InComment t opening.start ∧
          ¬InComment t name.start ∧ ¬InComment t answer.start) ∨
        ∃ opening name answer, GuardMarks (withoutComments t) opening name answer ∧
          ¬GuardMarks t opening name answer) ∧
    ∀ (signature : Pattern) (span : Span), firstDeclaration t signature = some span →
      (¬InLiteral t span.start ↔ firstDeclarationInCode t signature = some span) :=
  ⟨isInstalled_android_withoutComments_iff, isInstalled_ios_withoutComments_iff,
    fun _ _ => firstDeclaration_in_code_iff⟩

/-- A signature in a comment and the declaration on the line behind it. -/
def hookBehindComment : Text := block
  ["// override fun getJSBundleFile()", "override fun getJSBundleFile() = null", ""]

theorem hook_found_in_code_hookBehindComment :
    firstDeclaration hookBehindComment kotlinBundleMethod = some ⟨34, 71⟩ ∧
      ¬InLiteral hookBehindComment 34 := by
  have hfound : firstDeclaration hookBehindComment kotlinBundleMethod = some ⟨34, 71⟩ ∧
      firstDeclarationInCode hookBehindComment kotlinBundleMethod = some ⟨34, 71⟩ := by
    decide
  exact ⟨hfound.1, ((hook_found_in_code hookBehindComment).2.2 _ _ hfound.1).2 hfound.2⟩

/-- The Android choice behind a comment mark. -/
def commentedChoice : Text := block
  ["// if (BuildConfig.DEBUG) null else Stallion.getJSBundleFile(", ""]

/-- The iOS conditional inside a block comment. -/
def commentedConditional : Text := block
  ["/*", "#if DEBUG", ".expo/.virtual-metro-entry", "#else",
    "return StallionModule.getBundleURL()", "#endif", "*/", ""]

/-- A Kotlin hook behind a comment mark. -/
def commentedHook : Text := block ["// override fun getJSBundleFile() = null", ""]

/-- The guards take a hook in a comment for an installed one, and a declaration is found there. -/
theorem hook_found_in_comment :
    (Platform.android.isInstalled commentedChoice = true ∧
      Platform.android.isInstalled (withoutComments commentedChoice) = false) ∧
    (Platform.ios.isInstalled commentedConditional = true ∧
      Platform.ios.isInstalled (withoutComments commentedConditional) = false) ∧
    firstDeclaration commentedHook kotlinBundleMethod = some ⟨3, 40⟩ ∧
      InComment commentedHook 3 := by
  decide +kernel

end BundleHook
