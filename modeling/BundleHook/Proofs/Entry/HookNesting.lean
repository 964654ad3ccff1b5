import Mathlib.Data.List.Forall2
import BundleHook.Proofs.Code.Enclosing
import BundleHook.Proofs.Entry.Openings
import BundleHook.Proofs.Entry.Surroundings

/-!
# Scans of hooks

A hook is balanced in every kind of delimiter at every indentation, and it completes nothing that
stands before it. The signatures of hooks and the heads of launch methods are plain text and begin
with a letter, an annotation mark or a minus sign.
-/

namespace BundleHook.Entry

open Text Code Code.Pattern

/-! ## Delimiters of a block -/

/-- An opening or a closing delimiter. -/
def isDelimiter (c : Char) : Bool := "\x7b\x7d()[]".toList.contains c

/-- A scan comes through the text and meets just these delimiters in it. -/
def Delimits (t delimiters : Text) : Prop :=
  ∃ code, Passes t code ∧ code.filter isDelimiter = delimiters

theorem isDelimiter_of_closerOf {opener closer : Char} (h : closerOf opener = some closer) :
    isDelimiter opener = true ∧ isDelimiter closer = true := by
  unfold closerOf at h
  split at h
  all_goals first | cases h; decide | cases h

theorem openAfter_filter {opener closer : Char} (h : closerOf opener = some closer) (depth : Nat)
    (code : Text) :
    openAfter opener closer depth (code.filter isDelimiter) = openAfter opener closer depth code := by
  obtain ⟨hopener, hcloser⟩ := isDelimiter_of_closerOf h
  induction code generalizing depth with
  | nil => rfl
  | cons c code ih =>
      cases hc : isDelimiter c with
      | true =>
          rw [List.filter_cons_of_pos hc, openAfter, openAfter]
          simp only [ih]
      | false =>
          have hopens : c ≠ opener := by rintro rfl; rw [hopener] at hc; cases hc
          have hcloses : c ≠ closer := by rintro rfl; rw [hcloser] at hc; cases hc
          rw [List.filter_cons_of_neg (by simp [hc]), openAfter, if_neg hopens, if_neg hcloses, ih]

namespace Delimits

theorem append {s t delimiters others : Text} (hs : Delimits s delimiters)
    (ht : Delimits t others) : Delimits (s ++ t) (delimiters ++ others) := by
  obtain ⟨code, hpasses, rfl⟩ := hs
  obtain ⟨code', hpasses', rfl⟩ := ht
  exact ⟨code ++ code', hpasses.append hpasses', List.filter_append ..⟩

theorem plain {t : Text} (h : ∀ c ∈ t, IsPlain c) : Delimits t (t.filter isDelimiter) :=
  ⟨t, .plain h, rfl⟩

theorem string {s : Text} (hne : s ≠ []) (hs : ∀ c ∈ s, c ≠ '"' ∧ c ≠ '\n' ∧ c ≠ '\\') :
    Delimits ('"' :: (s ++ ['"'])) [] :=
  ⟨[], .string hne hs, rfl⟩

theorem indentation {indent : Text} (h : IsIndentation indent) : Delimits indent [] := by
  refine ⟨indent, .plain fun c hc => .of_isBlank (isBlank_of_isIndent c (h c hc)), ?_⟩
  refine List.filter_eq_nil_iff.2 fun c hc hdelimiter => ?_
  have hindent := h c hc
  simp only [isIndent, Bool.or_eq_true, beq_iff_eq] at hindent
  rcases hindent with rfl | rfl <;> exact absurd hdelimiter (by decide)

theorem indentLine {indent line delimiters : Text} (hindent : IsIndentation indent)
    (h : Delimits line delimiters) : Delimits (indentLine indent line) delimiters := by
  unfold Code.indentLine
  split
  · exact h
  · exact (indentation hindent).append h

theorem join {parts delimiters : List Text} (h : List.Forall₂ Delimits parts delimiters) :
    Delimits (Text.join ['\n'] parts) delimiters.flatten := by
  induction h with
  | nil => exact ⟨[], .nil, rfl⟩
  | cons hpart hparts ih =>
      cases hparts with
      | nil =>
          rw [List.flatten_cons, List.flatten_nil, List.append_nil]
          exact hpart
      | cons hnext hlater =>
          have hfeed : Delimits ['\n'] [] := plain (by decide)
          have hjoin := (hpart.append hfeed).append ih
          rwa [List.append_nil] at hjoin

end Delimits

/-- In every line of the block a scan meets the delimiters of the line, and all together are
balanced. -/
structure IsBalancedBlock (block : Text) : Prop where
  lines : ∀ line ∈ splitOn '\n' block, Delimits line (line.filter isDelimiter)
  balanced : ∀ opener closer, closerOf opener = some closer →
    openAfter opener closer 1 ((splitOn '\n' block).map (·.filter isDelimiter)).flatten = some 1

namespace IsBalancedBlock

variable {block : Text} (h : IsBalancedBlock block) {indent : Text}
  (hindent : IsIndentation indent)

include h

theorem exists_balanced {parts : List Text} (hparts : List.Forall₂ Delimits parts
    ((splitOn '\n' block).map (·.filter isDelimiter))) :
    ∃ code, Passes (join ['\n'] parts) code ∧ ∀ opener closer, closerOf opener = some closer →
      Balanced opener closer code := by
  obtain ⟨code, hpasses, hcode⟩ := Delimits.join hparts
  refine ⟨code, hpasses, fun opener closer hkind => ?_⟩
  rw [balanced_iff (ne_of_closerOf hkind), ← openAfter_filter hkind, hcode]
  exact h.balanced opener closer hkind

include hindent

theorem exists_passes_indented :
    ∃ code, Passes (indented block indent) code ∧ ∀ opener closer, closerOf opener = some closer →
      Balanced opener closer code := by
  refine h.exists_balanced ?_
  rw [List.forall₂_map_left_iff, List.forall₂_map_right_iff, List.forall₂_same]
  exact fun line hline => (h.lines line hline).indentLine hindent

theorem exists_passes_indentRest :
    ∃ code, Passes (indentRest block indent) code ∧ ∀ opener closer, closerOf opener = some closer →
      Balanced opener closer code := by
  have hlines := h.lines
  have hbalanced := @exists_balanced block h
  unfold indentRest
  cases hsplit : splitOn '\n' block with
  | nil => exact absurd hsplit (splitOn_ne_nil _ _)
  | cons first others =>
      rw [hsplit] at hlines hbalanced
      obtain ⟨hfirst, hothers⟩ := List.forall_mem_cons.1 hlines
      refine hbalanced (.cons hfirst ?_)
      rw [List.forall₂_map_left_iff, List.forall₂_map_right_iff, List.forall₂_same]
      exact fun line hline => (hothers line hline).indentLine hindent

end IsBalancedBlock

/-! ## Beginnings of hooks -/

/-- Padding before a text completes nothing either. -/
theorem inert_padding {padding t : Text} (hpadding : IsPadding padding) (h : Inert t) :
    Inert (padding ++ t) := by
  induction padding with
  | nil => exact h
  | cons c padding ih =>
      obtain ⟨hc, hpadding⟩ := List.forall_mem_cons.1 hpadding
      refine (ih hpadding).cons ?_ ?_
      all_goals
        simp only [isIndent, Bool.or_eq_true, beq_iff_eq] at hc
        rcases hc with rfl | rfl | rfl <;> decide

/-- The first line of the block completes nothing that stands before it, and is long enough to hold
a character literal apart from what stands behind it. -/
structure HasInertLead (block : Text) : Prop where
  long : characterRoom ≤ (firstLine block).length
  noApostrophe : '\x27' ∉ firstLine block
  head : ∀ c ∈ (firstLine block).head?, c ≠ '/' ∧ c ≠ '*' ∧ c ≠ '"'

namespace HasInertLead

variable {block : Text} (h : HasInertLead block)

include h

theorem inert (rest : Text) : Inert (firstLine block ++ rest) :=
  .of_append h.long h.noApostrophe fun c hc => h.head c hc

theorem inert_indentRest (indent rest : Text) : Inert (indentRest block indent ++ rest) := by
  unfold indentRest
  rw [lines_eq_tail]
  cases hothers : (splitOn '\n' block).tail with
  | nil => exact h.inert rest
  | cons next others =>
      simp only
      rw [List.map_cons, join_cons (List.cons_ne_nil _ _), List.append_assoc, List.append_assoc]
      exact h.inert _

theorem inert_indented {indent : Text} (hindent : IsIndentation indent) (rest : Text) :
    Inert (indented block indent ++ rest) := by
  have hne : (firstLine block).isEmpty = false := by
    rw [List.isEmpty_eq_false_iff, ← List.length_pos_iff]
    exact Nat.lt_of_lt_of_le (by decide) h.long
  have hline (rest : Text) : Inert (indentLine indent (firstLine block) ++ rest) := by
    rw [indentLine, if_neg (by simp [hne]), List.append_assoc]
    exact inert_padding (.of_isIndentation hindent) (h.inert rest)
  unfold indented
  rw [lines_eq_tail, List.map_cons]
  cases hothers : (splitOn '\n' block).tail with
  | nil => exact hline rest
  | cons next others =>
      rw [List.map_cons, join_cons (List.cons_ne_nil _ _), List.append_assoc, List.append_assoc]
      exact hline _

end HasInertLead

/-! ## The four hooks -/

def hooks : List Text := [hookInKotlin, hookInJava, hookInSwift, hookInObjectiveC]

/-- Every opener with its closer. -/
def closerPairs : List (Char × Char) := [('\x7b', '\x7d'), ('(', ')'), ('[', ']')]

theorem mem_closerPairs {opener closer : Char} (h : closerOf opener = some closer) :
    (opener, closer) ∈ closerPairs := by
  unfold closerOf at h
  split at h <;> cases h <;> decide

/-- The lines of hooks that name the development bundle. -/
def bundleLines : List Text :=
  ["      .jsBundleURL(forBundleRoot: ".toList ++ "\".expo/.virtual-metro-entry\"".toList ++
      ")".toList,
   "    jsBundleURLForBundleRoot:@".toList ++ "\".expo/.virtual-metro-entry\"".toList ++
      "];".toList]

theorem delimits_of_mem_bundleLines {line : Text} (h : line ∈ bundleLines) :
    Delimits line (line.filter isDelimiter) := by
  have hname : Delimits "\".expo/.virtual-metro-entry\"".toList [] :=
    .string (s := ".expo/.virtual-metro-entry".toList) (by decide) (by decide)
  simp only [bundleLines, List.mem_cons, List.not_mem_nil, or_false] at h
  rcases h with rfl | rfl
  · exact ((Delimits.plain (by decide)).append hname).append (.plain (by decide))
  · exact ((Delimits.plain (by decide)).append hname).append (.plain (by decide))

/-- All that is evaluated of the hooks: their lines, their delimiters and their first and last
lines. -/
theorem hooks_checked : ∀ hook ∈ hooks,
    (∀ line ∈ splitOn '\n' hook, (∀ c ∈ line, IsPlain c) ∨ line ∈ bundleLines) ∧
    (∀ pair ∈ closerPairs, openAfter pair.1 pair.2 1
      ((splitOn '\n' hook).map (·.filter isDelimiter)).flatten = some 1) ∧
    (characterRoom ≤ (firstLine hook).length ∧ '\x27' ∉ firstLine hook ∧
      ∀ c ∈ (firstLine hook).take 1, c ≠ '/' ∧ c ≠ '*' ∧ c ≠ '"') ∧
    2 ≤ (splitOn '\n' hook).length ∧ (splitOn '\n' hook).getLast? = some ['\x7d'] := by
  decide +kernel

variable {hook : Text}

theorem isBalancedBlock_of_mem (h : hook ∈ hooks) : IsBalancedBlock hook where
  lines line hline := ((hooks_checked hook h).1 line hline).elim .plain delimits_of_mem_bundleLines
  balanced _ _ hkind := (hooks_checked hook h).2.1 _ (mem_closerPairs hkind)

theorem hasInertLead_of_mem (h : hook ∈ hooks) : HasInertLead hook :=
  have ⟨hlong, hmark, hhead⟩ := (hooks_checked hook h).2.2.1
  ⟨hlong, hmark, fun c hc => hhead c (by
    rw [List.take_one]
    exact Option.mem_toList.2 hc)⟩

/-- The last line of a hook is a brace. -/
theorem exists_closed_of_mem (h : hook ∈ hooks) :
    ∃ init ≠ [], splitOn '\n' hook = init ++ [['\x7d']] := by
  obtain ⟨hlong, hlast⟩ := (hooks_checked hook h).2.2.2
  refine ⟨(splitOn '\n' hook).dropLast, ?_, (List.dropLast_append_getLast? _ hlast).symm⟩
  rw [ne_eq, ← List.length_eq_zero_iff, List.length_dropLast]
  omega

/-! ## Beginnings of members -/

/-- The characters that a member begins with. -/
def memberLeads : Text := "-@pioSfv".toList

/-- The text begins with such a character. -/
def BeginsMember (t : Text) : Prop := ∃ c ∈ memberLeads, t.head? = some c

theorem opens_memberLeads : ∀ w ∈ memberWords, Opens BeginsMember (word w) := by
  intro w hw before here q hmatches
  obtain ⟨rest, rfl, -⟩ := matches_text_iff.1 hmatches
  have hleads : ∀ w ∈ memberWords, memberLeads.any (w.toList.head? == some ·) = true := by decide
  obtain ⟨c, hc, hhead⟩ := List.any_eq_true.1 (hleads w hw)
  exact ⟨c, hc, by rw [List.head?_append, beq_iff_eq.1 hhead, Option.some_or]⟩

/-! ## Signatures -/

/-- A character that begins no literal and no comment and is no brace. -/
def IsBraceless (c : Char) : Prop := IsPlain c ∧ c ≠ '\x7b' ∧ c ≠ '\x7d'

instance (c : Char) : Decidable (IsBraceless c) :=
  inferInstanceAs (Decidable (_ ∧ _ ∧ _))

theorem isBraceless_of_isBlank (c : Char) (h : isBlank c = true) : IsBraceless c := by
  refine ⟨.of_isBlank h, ?_, ?_⟩ <;> rintro rfl <;> revert h <;> decide

theorem isBraceless_of_isWord (c : Char) (h : isWord c = true) : IsBraceless c := by
  refine ⟨.of_isWord h, ?_, ?_⟩ <;> rintro rfl <;> revert h <;> decide

/-- The pattern takes nothing but braceless characters. -/
abbrev TakesBraceless (pattern : Pattern) : Prop := pattern.TakesOnly IsBraceless

theorem takesBraceless_blanks : TakesBraceless blanks := isBraceless_of_isBlank

theorem takesBraceless_gap : TakesBraceless gap := ⟨isBraceless_of_isBlank, takesBraceless_blanks⟩

theorem takesBraceless_name : TakesBraceless name := ⟨isBraceless_of_isWord, isBraceless_of_isWord⟩

theorem takesBraceless_noParameters : TakesBraceless noParameters := by
  simp only [noParameters, TakesOnly.append_iff, TakesOnly.word_iff, takesBraceless_blanks]
  decide

theorem takesBraceless_kotlinBundleMethod : TakesBraceless kotlinBundleMethod := by
  simp only [kotlinBundleMethod, kotlinResult, TakesOnly.append_iff, TakesOnly.maybe_iff,
    TakesOnly.word_iff, TakesOnly.oneOf_iff, takesBraceless_blanks, takesBraceless_gap,
    takesBraceless_noParameters]
  decide

theorem takesBraceless_javaBundleMethod : TakesBraceless javaBundleMethod := by
  simp only [javaBundleMethod, javaAnnotation, TakesOnly.append_iff, TakesOnly.maybe_iff,
    TakesOnly.turns_iff, TakesOnly.word_iff, TakesOnly.oneOf_iff, takesBraceless_gap,
    takesBraceless_name, takesBraceless_noParameters]
  decide

theorem takesBraceless_swiftBundleMethod : TakesBraceless swiftBundleMethod := by
  simp only [swiftBundleMethod, TakesOnly.append_iff, TakesOnly.maybe_iff, TakesOnly.word_iff,
    TakesOnly.oneOf_iff, takesBraceless_blanks, takesBraceless_gap, takesBraceless_noParameters]
  decide

theorem takesBraceless_objectiveCBundleMethod : TakesBraceless objectiveCBundleMethod := by
  have hedge : TakesBraceless edge := trivial
  simp only [objectiveCBundleMethod, TakesOnly.append_iff, TakesOnly.word_iff,
    takesBraceless_blanks, hedge]
  decide

end BundleHook.Entry

namespace BundleHook.HookForm

open Code Entry

/-- What a scan needs to know of a form: its hook is balanced and completes nothing before it, and
its signature is plain, without braces, and begins as a member does. -/
structure IsTame (form : HookForm) : Prop where
  block : IsBalancedBlock form.hook
  lead : HasInertLead form.hook
  braceless : TakesBraceless form.signature
  opens : Opens BeginsMember form.signature

theorem hook_mem {form : HookForm} (h : form ∈ all) : form.hook ∈ hooks := by
  simp only [all, List.mem_cons, List.not_mem_nil, or_false] at h
  rcases h with rfl | rfl | rfl | rfl | rfl <;> simp [hooks]

theorem isTame_of_mem_all {form : HookForm} (h : form ∈ all) : form.IsTame := by
  have hblock := isBalancedBlock_of_mem (hook_mem h)
  have hlead := hasInertLead_of_mem (hook_mem h)
  simp only [all, List.mem_cons, List.not_mem_nil, or_false] at h
  rcases h with rfl | rfl | rfl | rfl | rfl
  · exact ⟨hblock, hlead, takesBraceless_kotlinBundleMethod,
      opens_kotlinBundleMethod opens_memberLeads⟩
  · exact ⟨hblock, hlead, takesBraceless_kotlinBundleMethod,
      opens_kotlinBundleMethod opens_memberLeads⟩
  · exact ⟨hblock, hlead, takesBraceless_javaBundleMethod, opens_javaBundleMethod opens_memberLeads⟩
  · exact ⟨hblock, hlead, takesBraceless_swiftBundleMethod,
      opens_swiftBundleMethod opens_memberLeads⟩
  · exact ⟨hblock, hlead, takesBraceless_objectiveCBundleMethod,
      opens_objectiveCBundleMethod opens_memberLeads⟩

end BundleHook.HookForm
