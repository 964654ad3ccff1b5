import BundleHook.Proofs.Entry.Openings
import BundleHook.Proofs.Entry.Surroundings

/-!
# No hook without its imports

An installer puts in the imports before it looks for the place of the hook. The lines that it then
breaks or exchanges hold a word that no import has: the words a declaration begins with, or a
delimiter. The import lines stay whole, except for those in the part that the hook replaces.

* `MarksLine` — the text holds a word that no import has;
* `Exchange` — an installer with the part of a text that it replaces;
* `Exchange.keepsImports_of_mem_all` — every installer keeps the import lines;
* `hook_with_imports` — a changed file has its hook and its imports.
-/

namespace BundleHook

open Text Code Code.Pattern Entry

namespace Entry

/-! ## Words that no import has -/

/-- Delimiters, and the words that a declaration may begin with. -/
def foreignWords : List String :=
  ["\x7b", "\x7d", "(", ")", "[", "]", ",", ":", "=", "//", "-", "@", "@end", "@objc",
    "@Override", "public", "protected", "private", "internal", "override", "open", "func", "void",
    "String"]

/-- All spellings of all imports that a hook needs. -/
def importSpellings : List Text :=
  (importsInKotlin ++ importsInJava ++ importsInSwift ++ importsInObjectiveC).flatMap
    RequiredImport.spellings

theorem isStatement_of_mem {s : Text} (h : s ∈ importSpellings) : IsStatement s := by
  have hall : importSpellings.all (fun s => decide (IsStatement s)) = true := by decide
  exact of_decide_eq_true (List.all_eq_true.1 hall s h)

/-- The text holds a word that no import has. -/
def MarksLine (t : Text) : Prop := ∃ w ∈ foreignWords, w.toList <:+: t

theorem MarksLine.mono {s t : Text} (h : MarksLine s) (hin : s <:+: t) : MarksLine t := by
  obtain ⟨w, hw, hs⟩ := h
  exact ⟨w, hw, hs.trans hin⟩

theorem MarksLine.not_fillsLine {s line : Text} (h : MarksLine line) (hs : s ∈ importSpellings) :
    ¬ FillsLine s line := by
  intro hfills
  obtain ⟨w, hw, hin⟩ := h
  have hwords : foreignWords.all (fun w => w.toList != [] && w.toList.all (!isBlank ·)) = true := by
    decide
  have hforeign : foreignWords.all (fun w => importSpellings.all (!has w.toList ·)) = true := by
    decide
  obtain ⟨hne, hclean⟩ := Bool.and_eq_true_iff.1 (List.all_eq_true.1 hwords w hw)
  have hnot := List.all_eq_true.1 (List.all_eq_true.1 hforeign w hw) s hs
  have hshort := hfills.infix_of_infix (bne_iff_ne.1 hne)
    (fun c hc => by simpa using List.all_eq_true.1 hclean c hc) hin
  rw [has_iff.2 hshort] at hnot
  cases hnot

theorem marksLine_of_mem {c : Char} (hc : c.toString ∈ foreignWords) {t : Text} (h : c ∈ t) :
    MarksLine t := by
  obtain ⟨before, behind, rfl⟩ := List.append_of_mem h
  refine ⟨_, hc, before, behind, ?_⟩
  simp [Char.toString]

theorem marksLine_of_comment {t : Text} (h : opensLineComment t = true) :
    MarksLine (firstLine t) := by
  unfold opensLineComment at h
  split at h
  · next rest =>
    have hline : firstLine (['/', '/'] ++ rest) = ['/', '/'] ++ firstLine rest := by
      rw [firstLine_append, if_neg (by decide)]
    exact ⟨"//", by decide, hline ▸ (List.prefix_append _ _).isInfix⟩
  · cases h

/-! ## Patterns that begin with such a word -/

/-- The first line of the text is marked. -/
def BeginsMarked (t : Text) : Prop := MarksLine (firstLine t)

theorem opens_word {w : String} (h : w ∈ foreignWords) : Opens BeginsMarked (word w) := by
  intro before here q hmatches
  obtain ⟨rest, rfl, -⟩ := matches_text_iff.1 hmatches
  have hlines : foreignWords.all (fun w => !w.toList.contains '\n') = true := by decide
  have hline : '\n' ∉ w.toList := by simpa using List.all_eq_true.1 hlines w h
  rw [BeginsMarked, firstLine_append, if_neg hline]
  exact ⟨w, h, (List.prefix_append _ _).isInfix⟩

theorem opens_memberWords : ∀ w ∈ memberWords, Opens BeginsMarked (word w) :=
  fun _ hw => opens_word ((by decide : memberWords ⊆ foreignWords) hw)

/-- The end of an Objective-C class stands behind nothing but spaces and tabs. -/
theorem opens_classEndPattern : Opens BeginsMarked AppDelegate.classEndPattern := by
  unfold AppDelegate.classEndPattern
  apply Opens.both
  intro before here q hmatches
  obtain ⟨r, hindent, hword⟩ := matches_both_iff.1 hmatches
  obtain ⟨r, hstart, hindent⟩ := matches_both_iff.1 hindent
  obtain ⟨-, rfl⟩ := matches_lineStart_iff.1 hstart
  obtain ⟨indent, rest, rfl, hblank, rfl⟩ := matches_many_iff.1 hindent
  have hline : '\n' ∉ indent := fun hmem => absurd (hblank _ hmem) (by decide)
  rw [BeginsMarked, firstLine_append, if_neg hline]
  have hopens : Opens BeginsMarked (word "@end") := opens_word (by decide)
  exact (hopens _ rest q hword).mono (List.suffix_append indent _).isInfix

/-! ## Delimiters -/

theorem foreign_of_closerOf {opener closer : Char} (h : closerOf opener = some closer) :
    opener.toString ∈ foreignWords ∧ closer.toString ∈ foreignWords := by
  unfold closerOf at h
  split at h
  all_goals first | cases h; decide | cases h

theorem marksLine_drop {t : Text} {index : Nat} {c : Char} (h : t[index]? = some c)
    (hc : c.toString ∈ foreignWords) : MarksLine (firstLine (t.drop index)) := by
  have hhead : (t.drop index).head? = some c := by rw [List.head?_drop, h]
  obtain ⟨rest, hrest⟩ := List.head?_eq_some_iff.1 hhead
  have hline : '\n' ∉ [c] := by
    rw [List.mem_singleton]
    rintro rfl
    exact absurd hc (by decide)
  rw [hrest, ← List.singleton_append, firstLine_append, if_neg hline]
  exact marksLine_of_mem hc (by simp)

theorem marksLine_take {t : Text} {index : Nat} {c : Char} (h : t[index]? = some c)
    (hc : c.toString ∈ foreignWords) : MarksLine (lastLine (t.take (index + 1))) := by
  have hline : '\n' ∉ [c] := by
    rw [List.mem_singleton]
    rintro rfl
    exact absurd hc (by decide)
  rw [List.take_add_one, h, Option.toList_some, lastLine_append, if_neg hline]
  exact marksLine_of_mem hc (by simp)

theorem marksLine_of_matchingCloser {t : Text} {index close : Nat}
    (h : matchingCloser t index = some close) : MarksLine (firstLine (t.drop close)) := by
  obtain ⟨opener, closer, -, hcloser, -, hclose⟩ := matchingCloser_eq_some h
  exact marksLine_drop hclose (foreign_of_closerOf hcloser).2

/-! ## Replaced values -/

/-- The value of the bundle argument in a call of the host builder, when the call sets it. -/
def hostValueOf (t : Text) (call : Span) : Option Span := do
  let closeParen ← matchingCloser t (call.stop - 1)
  let argument ← MainApplication.hostArgumentPattern.searchAfter (t.take closeParen) (call.stop - 1)
  return ⟨argument.stop, MainApplication.trimmedStop t argument.stop
    (expressionStop t argument.stop [',', ')'])⟩

/-- The value of the bundle argument in the first call of the host builder. -/
def hostValue? (t : Text) : Option Span := do
  let call ← (MainApplication.defaultHostCallPattern.search t).or
    (MainApplication.hostCallPattern.search t)
  hostValueOf t call

/-- What is trimmed off a value are spaces, tabs and carriage returns. -/
theorem drop_trimmedStop {t : Text} {start stop : Nat} (hle : start ≤ stop)
    (hlength : stop ≤ t.length) :
    start ≤ MainApplication.trimmedStop t start stop ∧
      ∃ trail, (∀ c ∈ trail, isIndent c = true ∨ c = '\r') ∧
        t.drop (MainApplication.trimmedStop t start stop) = trail ++ t.drop stop := by
  have hparts := List.takeWhile_append_dropWhile
    (p := fun c => isIndent c || c == '\r') (l := (slice t start stop).reverse)
  have hall := List.all_takeWhile (p := fun c => isIndent c || c == '\r')
    (l := (slice t start stop).reverse)
  unfold MainApplication.trimmedStop
  simp only
  generalize (slice t start stop).reverse.takeWhile (fun c => isIndent c || c == '\r') = run at *
  generalize (slice t start stop).reverse.dropWhile (fun c => isIndent c || c == '\r') = kept at *
  have hslice : slice t start stop = kept.reverse ++ run.reverse := by
    rw [← List.reverse_append, hparts, List.reverse_reverse]
  have hwhole := take_slice_drop (t := t) hle
  rw [hslice] at hwhole
  have htake : (t.take start).length = start := List.length_take_of_le (Nat.le_trans hle hlength)
  have hstop : (t.take stop).length = stop := List.length_take_of_le hlength
  have hsum := congrArg List.length (take_append_slice (t := t) hle)
  rw [hslice] at hsum
  simp only [List.length_append, List.length_reverse, htake, hstop] at hsum
  refine ⟨by omega, run.reverse, fun c hc => ?_, ?_⟩
  · have hc := List.all_eq_true.1 hall c (List.mem_reverse.1 hc)
    simpa using hc
  · have hplace : stop - run.length = (t.take start ++ kept.reverse).length := by
      rw [List.length_append, List.length_reverse, htake]
      omega
    have hdrop := congrArg (List.drop (t.take start ++ kept.reverse).length) hwhole
    rw [hplace, ← hdrop]
    simp only [← List.append_assoc]
    rw [List.append_assoc (_ ++ _), List.drop_left]

/-- In front of the value is the sign of the argument, or nothing but blanks on its line. -/
theorem lastLine_hostArgument {t : Text} {argument : Span}
    (h : MainApplication.hostArgumentPattern.MatchesAt t argument) :
    MarksLine (lastLine (t.take argument.stop)) ∨
      ∀ d ∈ lastLine (t.take argument.stop), isBlank d = true := by
  obtain ⟨middle, hsign, hblanks⟩ := matchesAt_both h
  obtain ⟨before, -, hone⟩ := matchesAt_both hsign
  obtain ⟨c, hc, hslice⟩ := matchesAt_one hone
  have hgap := matchesAt_many hblanks
  rw [← take_append_slice hblanks.1, lastLine_append]
  split
  · exact .inr fun d hd => hgap d ((lastLine_suffix _).subset hd)
  · refine .inl ?_
    rw [← take_append_slice hone.1, hslice, lastLine_append]
    have hforeign : c.toString ∈ foreignWords ∧ '\n' ∉ [c] := by
      simp only [Bool.or_eq_true, beq_iff_eq] at hc
      rcases hc with rfl | rfl <;> decide
    rw [if_neg hforeign.2]
    exact marksLine_of_mem hforeign.1 (by simp)

/-- Behind the value are blanks up to the end of its line, or the end of the argument is there. -/
theorem firstLine_hostValue {trail rest : Text} (htrail : ∀ c ∈ trail, isIndent c = true ∨ c = '\r')
    (hends : EndsExpression [',', ')'] rest) :
    MarksLine (firstLine (trail ++ rest)) ∨ ∀ d ∈ firstLine (trail ++ rest), isBlank d = true := by
  have hblank : ∀ c ∈ trail, isBlank c = true := fun c hc =>
    (htrail c hc).elim (isBlank_of_isIndent c) (by rintro rfl; decide)
  have hfeed : '\n' ∉ trail := fun hmem => by
    have := htrail _ hmem
    revert this
    decide
  rw [firstLine_append, if_neg hfeed]
  rcases hends with rfl | hcomment | ⟨c, behind, rfl, rfl | hstop⟩
  · rw [firstLine_of_breaksLine (.inl rfl), List.append_nil]
    exact .inr hblank
  · exact .inl ((marksLine_of_comment hcomment).mono (List.suffix_append _ _).isInfix)
  · rw [firstLine_of_breaksLine (.inr rfl), List.append_nil]
    exact .inr hblank
  · have hforeign : c.toString ∈ foreignWords := by
      simp only [List.mem_cons, List.not_mem_nil, or_false] at hstop
      rcases hstop with rfl | rfl <;> decide
    have hmarks : MarksLine (firstLine ((c :: behind).drop 0)) := marksLine_drop rfl hforeign
    exact .inl (hmarks.mono (List.suffix_append _ _).isInfix)

/-! ## Edits that keep the lines of a statement -/

section Edits

variable {s : Text} (hs : s ∈ importSpellings)

include hs

/-- A part of a marked line may be exchanged. -/
theorem standsAlone_within {a m c : Text} (x : Text) (hm : '\n' ∉ m)
    (hmarks : MarksLine (lastLine a ++ m ++ firstLine c))
    (h : standsAlone (a ++ m ++ c) s = true) : standsAlone (a ++ x ++ c) s = true := by
  refine standsAlone_splice x (isStatement_of_mem hs).1 h fun line htouched => ?_
  rcases mem_lines_touched htouched with rfl | ⟨hfeed, -⟩
  · rw [firstLine_append_firstLine, firstLine_append, if_neg hm, ← List.append_assoc]
    exact hmarks.not_fillsLine hs
  · exact absurd hfeed hm

/-- A marked line may be broken. -/
theorem standsAlone_break {a c : Text} (x : Text) (hmarks : MarksLine (lastLine a ++ firstLine c))
    (h : standsAlone (a ++ c) s = true) : standsAlone (a ++ x ++ c) s = true := by
  rw [← List.append_nil a] at h
  refine standsAlone_within hs x List.not_mem_nil ?_ h
  rwa [List.append_nil]

theorem standsAlone_placeBefore {t : Text} {index : Nat} (block : Text)
    (hmarks : MarksLine (firstLine (t.drop index)))
    (h : standsAlone t s = true) : standsAlone (placeBefore t index block) s = true := by
  have hline := (isStatement_of_mem hs).1
  unfold placeBefore
  simp only
  split
  · rw [List.append_assoc (t.take _) _ ['\n', '\n']]
    refine standsAlone_insert hline (endsLine_take_startOfLine t index) (.inr (by simp)) ?_
    rwa [List.take_append_drop]
  · rw [List.append_assoc (t.take index), List.append_assoc (t.take index),
      List.append_assoc (t.take index)]
    refine standsAlone_break hs _ (hmarks.mono (List.suffix_append _ _).isInfix) ?_
    rwa [List.take_append_drop]

theorem standsAlone_placeBeforeCloser {t : Text} {close : Nat} (block indent : Text)
    (hmarks : MarksLine (firstLine (t.drop close)))
    (h : standsAlone t s = true) :
    standsAlone (placeBeforeCloser t close block indent) s = true := by
  have hline := (isStatement_of_mem hs).1
  unfold placeBeforeCloser
  simp only
  rw [List.append_assoc (t.take _), List.append_assoc (t.take _)]
  split
  · refine standsAlone_insert hline (endsLine_take_startOfLine t close)
      (.inr List.getLast?_concat) ?_
    rwa [List.take_append_drop]
  · refine standsAlone_break hs _ (hmarks.mono (List.suffix_append _ _).isInfix) ?_
    rwa [List.take_append_drop]

theorem standsAlone_placeBehindLine {t : Text} (index : Nat) (block indent : Text)
    (h : standsAlone t s = true) :
    standsAlone (placeBehindLine t index block indent) s = true := by
  have hline := (isStatement_of_mem hs).1
  unfold placeBehindLine
  simp only
  split
  · -- The block stands behind the whole text, and the text's last line ends in front of it.
    rw [standsAlone_iff hline] at h ⊢
    obtain ⟨line, hmem, hfills⟩ := h
    refine ⟨line, ?_, hfills⟩
    have hbreak : firstLine (['\n', '\n'] ++ indented block indent ++ ['\n']) = [] :=
      firstLine_of_breaksLine (.inr rfl)
    rw [List.append_assoc t, List.append_assoc t, lines_append, hbreak, List.append_nil]
    rw [lines_eq_init t] at hmem
    rcases List.mem_append.1 hmem with hmem | hmem
    · exact List.mem_append_left _ hmem
    · rw [List.mem_singleton.1 hmem]
      simp
  · next feed after hafter =>
    have hsuffix : feed :: after <:+ t :=
      (hafter ▸ List.dropWhile_suffix _).trans (List.drop_suffix index t)
    obtain ⟨front, rfl⟩ := hsuffix
    have hfeed : feed = '\n' := by
      have hhead := List.head?_dropWhile_not (· != '\n') ((front ++ feed :: after).drop index)
      rw [hafter] at hhead
      simpa using hhead
    have hfront : (front ++ feed :: after).take ((front ++ feed :: after).length - after.length) =
        front ++ ['\n'] := by
      rw [← List.singleton_append, ← List.append_assoc, List.length_append, Nat.add_sub_cancel,
        List.take_left, hfeed]
    rw [hfront, List.append_assoc (front ++ ['\n']), List.append_assoc (front ++ ['\n'])]
    refine standsAlone_insert hline (.inr List.getLast?_concat) (.inr List.getLast?_concat) ?_
    rw [← hfeed]
    simpa using h

/-- A part of the text may be exchanged that is marked where it meets the text around it, or that
meets nothing but blanks there. -/
theorem standsAlone_exchange {a m c : Text} (x : Text) (hm : standsAlone m s = false)
    (hfirst : MarksLine (lastLine a ++ firstLine (m ++ c)) ∨ ∀ d ∈ lastLine a, isBlank d = true)
    (hlast : MarksLine (lastLine m ++ firstLine c) ∨ ∀ d ∈ firstLine c, isBlank d = true)
    (h : standsAlone (a ++ m ++ c) s = true) : standsAlone (a ++ x ++ c) s = true := by
  have hstatement := isStatement_of_mem hs
  have hinner {line : Text} (hline : line ∈ splitOn '\n' m) : ¬ FillsLine s line := by
    intro hfills
    have halone := (standsAlone_iff hstatement.1 m).2 ⟨line, hline, hfills⟩
    rw [hm] at halone
    cases halone
  have hend : ¬ FillsLine s (lastLine m ++ firstLine c) := by
    intro hfills
    rcases hlast with hmarks | hblank
    · exact hmarks.not_fillsLine hs hfills
    · exact hinner (lastLine_mem m) (hfills.of_append_blank hstatement hblank)
  refine standsAlone_splice x hstatement.1 h fun line htouched => ?_
  rcases mem_lines_touched htouched with rfl | ⟨-, hline | rfl⟩
  · rw [firstLine_append_firstLine]
    intro hfills
    rcases hfirst with hmarks | hblank
    · exact hmarks.not_fillsLine hs hfills
    · have hfills := hfills.of_blank_append hstatement hblank
      rw [firstLine_append] at hfills
      split at hfills
      · exact hinner (firstLine_mem m) hfills
      · next hm =>
        rw [← lastLine_of_not_mem hm] at hfills
        exact hend hfills
  · exact hinner hline
  · exact hend

theorem standsAlone_replaceSpan {t : Text} {signature : Pattern} {span : Span} (block : Text)
    (hopens : Opens BeginsMarked signature) (hspan : firstDeclaration t signature = some span)
    (hpart : standsAlone (slice t span.start span.stop) s = false)
    (h : standsAlone t s = true) : standsAlone (replaceSpan t span block) s = true := by
  obtain ⟨hlt, hlength, hends, stop, hmatches, -⟩ := firstDeclaration_eq_some hspan
  have hle := Nat.le_of_lt hlt
  rw [← take_slice_drop (t := t) hle] at h
  refine standsAlone_exchange hs _ hpart (.inl ?_) ?_ h
  · rw [slice_append_drop hle]
    have hmarks := hopens.of_matchesAt hmatches
    exact hmarks.mono (List.suffix_append _ _).isInfix
  · rcases hends with hbrace | hnil | hcomment | ⟨c, behind, hc, hbreak⟩
    · -- The declaration ends with its brace.
      have hslice : (slice t span.start span.stop).getLast? = some '}' := by
        rw [slice, List.getLast?_drop, if_neg (by simp; omega), List.getLast?_take,
          if_neg (by omega), hbrace, Option.some_or]
      obtain ⟨inner, hinner⟩ := List.getLast?_eq_some_iff.1 hslice
      have hmem : '}' ∈ lastLine (slice t span.start span.stop) := by
        rw [hinner, lastLine_append, if_neg (by decide)]
        simp
      exact .inl ((marksLine_of_mem (by decide) hmem).mono (List.prefix_append _ _).isInfix)
    · rw [hnil]
      exact .inr (List.forall_mem_nil _)
    · exact .inl ((marksLine_of_comment hcomment).mono (List.suffix_append _ _).isInfix)
    · obtain rfl : c = '\n' := by simpa using hbreak
      rw [firstLine_of_breaksLine (by rw [hc]; exact .inr rfl)]
      exact .inr (List.forall_mem_nil _)

/-! ## Arguments of the host builder -/

theorem standsAlone_addHostArgument {t : Text} {openParen closeParen : Nat}
    (hclose : matchingCloser t openParen = some closeParen)
    (h : standsAlone t s = true) :
    standsAlone (MainApplication.addHostArgument t openParen closeParen) s = true := by
  obtain ⟨opener, closer, hopener, hcloser, -, -⟩ := matchingCloser_eq_some hclose
  have hlength : openParen + 1 ≤ t.length := (List.getElem?_eq_some_iff.1 hopener).1
  have hmarks := marksLine_take hopener (foreign_of_closerOf hcloser).1
  obtain ⟨hfirst, -⟩ := skipBlanks_le hlength
  unfold MainApplication.addHostArgument
  simp only
  split
  · rw [List.append_assoc (t.take _), List.append_assoc (t.take _), List.append_assoc (t.take _)]
    refine standsAlone_break hs _ (hmarks.mono (List.prefix_append _ _).isInfix) ?_
    rwa [List.take_append_drop]
  · next hline =>
    have hgap : '\n' ∉ slice t (openParen + 1) (skipBlanks t (openParen + 1)) := by
      simpa using hline
    have hline : MarksLine (lastLine (t.take (openParen + 1)) ++
        slice t (openParen + 1) (skipBlanks t (openParen + 1)) ++
        firstLine (t.drop (skipBlanks t (openParen + 1)))) := by
      rw [List.append_assoc]
      exact hmarks.mono (List.prefix_append _ _).isInfix
    rw [← take_slice_drop (t := t) hfirst] at h
    split
    · next hsame =>
      rw [← hsame]
      exact standsAlone_within hs _ hgap hline h
    · rw [List.append_assoc (t.take _) _ [',', ' ']]
      exact standsAlone_within hs _ hgap hline h

theorem standsAlone_setHostArgument {t out : Text} {call : Span}
    (hpart : ∀ span, hostValueOf t call = some span →
      standsAlone (slice t span.start span.stop) s = false)
    (hout : MainApplication.setHostArgument t call = some out)
    (h : standsAlone t s = true) : standsAlone out s = true := by
  simp only [MainApplication.setHostArgument, Option.bind_eq_bind, Option.bind_eq_some_iff] at hout
  obtain ⟨close, hclose, hout⟩ := hout
  split at hout
  · next argument hargument =>
    obtain rfl := Option.some.inj hout
    have hvalue : hostValueOf t call = some ⟨argument.stop, MainApplication.trimmedStop t
        argument.stop (expressionStop t argument.stop [',', ')'])⟩ := by
      simp only [hostValueOf, hclose, hargument, Option.bind_eq_bind, Option.bind_some,
        Option.pure_def]
    obtain ⟨-, -, -, -, hle, -⟩ := matchingCloser_eq_some hclose
    have hlt := lt_length_of_matchingCloser hclose
    have hlength : (t.take close).length = close := List.length_take_of_le (Nat.le_of_lt hlt)
    obtain ⟨hmatches, -⟩ := matchesAt_of_searchAfter (by rw [hlength]; exact hle) hargument
    have hstart : argument.stop ≤ t.length :=
      Nat.le_trans hmatches.2.1 (by rw [hlength]; exact Nat.le_of_lt hlt)
    obtain ⟨hexpression, hstop, hends⟩ := expressionStop_spec hstart [',', ')']
    obtain ⟨htrimmed, trail, htrail, hdrop⟩ := drop_trimmedStop hexpression hstop
    rw [← take_slice_drop (t := t) htrimmed] at h
    refine standsAlone_exchange hs _ (hpart _ hvalue) ?_ ?_ h
    · have htake : (t.take close).take argument.stop = t.take argument.stop := by
        rw [List.take_take, Nat.min_eq_left (by simpa [hlength] using hmatches.2.1)]
      rw [← htake]
      exact (lastLine_hostArgument hmatches).imp
        (fun hmarks => hmarks.mono (List.prefix_append _ _).isInfix) id
    · rw [hdrop]
      exact (firstLine_hostValue htrail hends).imp
        (fun hmarks => hmarks.mono (List.suffix_append _ _).isInfix) id
  · obtain rfl := Option.some.inj hout
    exact standsAlone_addHostArgument hs hclose h

/-! ## Installers -/

theorem standsAlone_installInClass {hook : Text} {signature launchPattern : Pattern}
    (hsignature : Opens BeginsMarked signature) (hlaunch : Opens BeginsMarked launchPattern)
    {t out : Text}
    (hpart : ∀ span, firstDeclaration t signature = some span →
      standsAlone (slice t span.start span.stop) s = false)
    (hout : MainApplication.installInClass hook signature launchPattern t = some out)
    (h : standsAlone t s = true) : standsAlone out s = true := by
  unfold MainApplication.installInClass at hout
  split at hout
  · next existing hexisting =>
    obtain rfl := Option.some.inj hout
    exact standsAlone_replaceSpan hs hook hsignature hexisting (hpart existing hexisting) h
  split at hout
  · next launch hfound =>
    obtain rfl := Option.some.inj hout
    exact standsAlone_placeBefore hs hook (hlaunch.of_matchesAt (matchesAt_of_search hfound)) h
  · simp only [MainApplication.placeAtClassEnd, Option.bind_eq_bind, Option.bind_eq_some_iff,
      Option.pure_def, Option.some.injEq] at hout
    obtain ⟨head, -, close, hclose, rfl⟩ := hout
    exact standsAlone_placeBeforeCloser hs hook _ (marksLine_of_matchingCloser hclose) h

theorem standsAlone_installInWrapper {t out : Text}
    (hpart : ∀ span, firstDeclaration t kotlinBundleMethod = some span →
      standsAlone (slice t span.start span.stop) s = false)
    (hout : MainApplication.installInWrapper t = some out)
    (h : standsAlone t s = true) : standsAlone out s = true := by
  unfold MainApplication.installInWrapper at hout
  split at hout
  · next existing hexisting =>
    obtain rfl := Option.some.inj hout
    exact standsAlone_replaceSpan hs _ (opens_kotlinBundleMethod opens_memberWords) hexisting
      (hpart existing hexisting) h
  split at hout
  · obtain rfl := Option.some.inj hout
    exact standsAlone_placeBehindLine hs _ _ _ h
  · simp only [Option.bind_eq_bind, Option.bind_eq_some_iff, Option.pure_def,
      Option.some.injEq] at hout
    obtain ⟨object, -, brace, -, close, hclose, rfl⟩ := hout
    obtain ⟨opener, closer, hopener, hcloser, -, -⟩ := matchingCloser_eq_some hclose
    have hmarks := marksLine_take hopener (foreign_of_closerOf hcloser).1
    rw [List.append_assoc (t.take _), List.append_assoc (t.take _)]
    refine standsAlone_break hs _ (hmarks.mono (List.prefix_append _ _).isInfix) ?_
    rwa [List.take_append_drop]

theorem standsAlone_installInHostCall {t out : Text}
    (hpart : ∀ span, hostValue? t = some span →
      standsAlone (slice t span.start span.stop) s = false)
    (hout : MainApplication.installInHostCall t = some out)
    (h : standsAlone t s = true) : standsAlone out s = true := by
  simp only [MainApplication.installInHostCall, Option.bind_eq_bind, Option.bind_eq_some_iff]
    at hout
  obtain ⟨call, hcall, hout⟩ := hout
  refine standsAlone_setHostArgument hs (fun span hspan => hpart span ?_) hout h
  rw [hostValue?, hcall]
  exact hspan

theorem standsAlone_installSwift {t out : Text}
    (hpart : ∀ span, firstDeclaration t swiftBundleMethod = some span →
      standsAlone (slice t span.start span.stop) s = false)
    (hout : AppDelegate.installSwift t = some out)
    (h : standsAlone t s = true) : standsAlone out s = true := by
  unfold AppDelegate.installSwift at hout
  split at hout
  · next existing hexisting =>
    obtain rfl := Option.some.inj hout
    exact standsAlone_replaceSpan hs _ (opens_swiftBundleMethod opens_memberWords) hexisting
      (hpart existing hexisting) h
  split at hout
  · next launch hfound =>
    obtain rfl := Option.some.inj hout
    exact standsAlone_placeBefore hs _
      ((opens_swiftLaunchMethod opens_memberWords).of_matchesAt (matchesAt_of_search hfound)) h
  · simp only [Option.bind_eq_bind, Option.bind_eq_some_iff, Option.pure_def,
      Option.some.injEq] at hout
    obtain ⟨head, -, close, hclose, rfl⟩ := hout
    exact standsAlone_placeBeforeCloser hs _ _ (marksLine_of_matchingCloser hclose) h

theorem standsAlone_installObjectiveC {t out : Text}
    (hpart : ∀ span, firstDeclaration t objectiveCBundleMethod = some span →
      standsAlone (slice t span.start span.stop) s = false)
    (hout : AppDelegate.installObjectiveC t = some out)
    (h : standsAlone t s = true) : standsAlone out s = true := by
  unfold AppDelegate.installObjectiveC at hout
  split at hout
  · next existing hexisting =>
    obtain rfl := Option.some.inj hout
    exact standsAlone_replaceSpan hs _ (opens_objectiveCBundleMethod opens_memberWords) hexisting
      (hpart existing hexisting) h
  split at hout
  · next launch hfound =>
    obtain rfl := Option.some.inj hout
    exact standsAlone_placeBefore hs _
      ((opens_objectiveCLaunchMethod opens_memberWords).of_matchesAt (matchesAt_of_search hfound)) h
  · simp only [Option.bind_eq_bind, Option.bind_eq_some_iff, Option.pure_def,
      Option.some.injEq] at hout
    obtain ⟨head, hhead, classEnd, hend, rfl⟩ := hout
    obtain ⟨hmatches, -⟩ := matchesAt_of_searchAfter (matchesAt_of_search hhead).2.1 hend
    exact standsAlone_placeBefore hs _ (opens_classEndPattern.of_matchesAt hmatches) h

end Edits

end Entry

/-! ## The installers and what they replace -/

/-- An installer with the part of a text that its hook takes the place of. -/
structure Exchange where
  installer : Installer
  replaced : Text → Option Span

namespace Exchange

/-- The installers of all dialects. -/
def all : List Exchange :=
  [⟨.expoReactHost, (firstDeclaration · kotlinBundleMethod)⟩, ⟨.reactHost, hostValue?⟩,
   ⟨.kotlin, (firstDeclaration · kotlinBundleMethod)⟩,
   ⟨.java, (firstDeclaration · javaBundleMethod)⟩,
   ⟨.swift, (firstDeclaration · swiftBundleMethod)⟩,
   ⟨.objectiveC, (firstDeclaration · objectiveCBundleMethod)⟩]

/-- Lines that are a spelling of an import stay, unless the hook takes the place of one. -/
def KeepsImports (exchange : Exchange) : Prop :=
  ∀ t out : Text, exchange.installer.install t = some out → ∀ s ∈ importSpellings,
    (∀ span, exchange.replaced t = some span →
      standsAlone (slice t span.start span.stop) s = false) →
    standsAlone t s = true → standsAlone out s = true

theorem keepsImports_of_mem_all {exchange : Exchange} (h : exchange ∈ all) :
    exchange.KeepsImports := by
  intro t out hout s hs hpart
  simp only [all, List.mem_cons, List.not_mem_nil, or_false] at h
  rcases h with rfl | rfl | rfl | rfl | rfl | rfl
  · exact standsAlone_installInWrapper hs hpart hout
  · exact standsAlone_installInHostCall hs hpart hout
  · exact standsAlone_installInClass hs (opens_kotlinBundleMethod opens_memberWords)
      (opens_kotlinLaunchMethod opens_memberWords) hpart hout
  · exact standsAlone_installInClass hs (opens_javaBundleMethod opens_memberWords)
      (opens_javaLaunchMethod opens_memberWords) hpart hout
  · exact standsAlone_installSwift hs hpart hout
  · exact standsAlone_installObjectiveC hs hpart hout

theorem installer_mem_all {exchange : Exchange} (h : exchange ∈ all) :
    exchange.installer ∈ Installer.all := by
  simp only [all, List.mem_cons, List.not_mem_nil, or_false] at h
  rcases h with rfl | rfl | rfl | rfl | rfl | rfl <;> simp [Installer.all]

theorem spellings_mem {exchange : Exchange} (h : exchange ∈ all) :
    ∀ required ∈ exchange.installer.imports, ∀ s ∈ required.spellings, s ∈ importSpellings := by
  intro required hrequired s hs
  refine List.mem_flatMap.2 ⟨required, ?_, hs⟩
  simp only [all, List.mem_cons, List.not_mem_nil, or_false] at h
  rcases h with rfl | rfl | rfl | rfl | rfl | rfl <;>
    simp only [Installer.expoReactHost, Installer.reactHost, Installer.kotlin, Installer.java,
      Installer.swift, Installer.objectiveC] at hrequired <;>
    simp [hrequired]

end Exchange

/-- A file that an installer changes has the hook and all the imports of the hook in the end, each
in one of its spellings and on a line of its own, as long as none of these lines is in the part that
the hook takes the place of. -/
theorem hook_with_imports {exchange : Exchange} (h : exchange ∈ Exchange.all) {t : Text}
    (hpart : ∀ span,
      exchange.replaced (ensureImports exchange.installer.style t exchange.installer.imports) =
        some span →
      ∀ required ∈ exchange.installer.imports, required.isPresent
        (slice (ensureImports exchange.installer.style t exchange.installer.imports)
          span.start span.stop) = false) :
    exchange.installer.apply t = t ∨
      exchange.installer.platform.isInstalled (exchange.installer.apply t) = true ∧
        ∀ required ∈ exchange.installer.imports,
          required.isPresent (exchange.installer.apply t) = true := by
  by_cases hsame : exchange.installer.apply t = t
  · exact .inl hsame
  have hspellings := Exchange.spellings_mem h
  have hinstalls := Installer.installsHook_of_mem_all (Exchange.installer_mem_all h)
  refine .inr ⟨(hinstalls.of_apply_ne hsame).2, fun required hrequired => ?_⟩
  have himported := importsAdded_ensureImports exchange.installer.style t exchange.installer.imports
  have hclean : ∀ required ∈ exchange.installer.imports, ∀ s ∈ required.spellings, '\n' ∉ s :=
    fun required hmem s hs => (isStatement_of_mem (hspellings required hmem s hs)).1
  obtain ⟨s, hs, halone⟩ :=
    RequiredImport.isPresent_iff.1 (himported.isPresent hclean required hrequired)
  refine RequiredImport.isPresent_iff.2 ⟨s, hs, ?_⟩
  refine Exchange.keepsImports_of_mem_all h _ _ (Installer.install_of_apply_ne hsame) s
    (hspellings required hrequired s hs) (fun span hspan => ?_) halone
  refine Bool.eq_false_iff.2 fun hpresent => ?_
  have hnone := hpart span hspan required hrequired
  rw [RequiredImport.isPresent_iff.2 ⟨s, hs, hpresent⟩] at hnone
  cases hnone

/-- A class with a bundle method: the method is replaced, and the import is added. -/
theorem hook_with_imports_bundleMethod :
    ∃ exchange ∈ Exchange.all, ∃ t : Text,
      (∃ span, exchange.replaced
        (ensureImports exchange.installer.style t exchange.installer.imports) = some span) ∧
      exchange.installer.apply t ≠ t ∧
        exchange.installer.platform.isInstalled (exchange.installer.apply t) = true ∧
          ∀ required ∈ exchange.installer.imports,
            required.isPresent (exchange.installer.apply t) = true := by
  let t : Text := "class MainApplication \x7b String getJSBundleFile() \x7b\x7d \x7d".toList
  have hmem : ⟨.java, (firstDeclaration · javaBundleMethod)⟩ ∈ Exchange.all :=
    .tail _ (.tail _ (.tail _ (.head _)))
  have hspan : firstDeclaration (ensureImports .terminated t importsInJava) javaBundleMethod =
      some ⟨54, 81⟩ := by decide
  have hchanged : Installer.java.apply t ≠ t := by decide
  have hpart : ∀ required ∈ importsInJava, required.isPresent
      (slice (ensureImports .terminated t importsInJava) 54 81) = false := by
    simp only [importsInJava, List.forall_mem_singleton]
    decide
  have hkept := hook_with_imports hmem (t := t) fun span hfound => by
    obtain rfl := Option.some.inj (hspan.symm.trans hfound)
    exact hpart
  exact ⟨_, hmem, t, ⟨_, hspan⟩, hchanged, hkept.resolve_left hchanged⟩

/-- An alias counts as the import, so that it is missed when it is a line of the replaced part. Here
the alias is the last line of the file and has no line feed. -/
theorem import_lost_with_replaced_alias :
    let t : Text := "- (NSURL *)bundleURL =\n#import \"StallionModule.h\"".toList
    let imported := ensureImports .directive t importsInObjectiveC
    ∃ span, firstDeclaration imported objectiveCBundleMethod = some span ∧
      ImportStyle.directive.pattern.occursIn t = false ∧
      ImportStyle.directive.pattern.occursIn (slice imported span.start span.stop) = false ∧
      (∀ required ∈ importsInObjectiveC,
        standsAlone (slice imported span.start span.stop) required.statement = false) ∧
      Installer.objectiveC.apply t ≠ t ∧
      ∃ required ∈ importsInObjectiveC,
        required.isPresent (Installer.objectiveC.apply t) = false := by
  refine ⟨⟨39, 88⟩, by decide +kernel, by decide +kernel, by decide +kernel, ?_, by decide +kernel,
    _, .head _, by decide +kernel⟩
  simp only [importsInObjectiveC, List.forall_mem_cons]
  decide

end BundleHook
