import Mathlib.Data.List.DropRight
import Mathlib.Tactic.MkIffOfInductiveProp
import BundleHook.Proofs.Code.Expression
import BundleHook.Proofs.Entry.ImportsKept

/-!
# The bundle argument of the host builder

The bundle argument of a call stands outside all inner delimiters, and its value reaches up to the
next comma there or to the end of the call. The first text in the call that looks like the argument
gets the new value: it is the argument, and its value is replaced whole, exactly when the text
stands outside all inner delimiters and its value shares its last line with nothing but blanks
before a comma or the end of the call. Without such a text the argument is put in as the first one.

* `IsHostArgument` — an argument of a call, with the end of its value;
* `valueStop` — the end of a value without the blanks at its end;
* `host_argument_set` — what becomes of a call.
-/

namespace BundleHook

open Text Code Code.Pattern Entry Entry.MainApplication

/-! ## Values -/

/-- Where a value ends that reaches up to `stop`: before the blanks at its end. -/
def valueStop (t : Text) (start stop : Nat) : Nat :=
  start + ((slice t start stop).rdropWhile isBlank).length

theorem rdropWhile_append_of_forall {p : Char → Bool} {t blank : Text} (h : ∀ c ∈ blank, p c = true) :
    (t ++ blank).rdropWhile p = t.rdropWhile p := by
  rw [List.rdropWhile, List.reverse_append,
    List.dropWhile_append_of_pos fun c hc => h c (List.mem_reverse.1 hc), List.rdropWhile]

/-- A value ends where nothing but blanks is behind it, and where it does not end with a blank. -/
theorem valueStop_eq_iff {t : Text} {start stop behind : Nat} (hstart : start ≤ stop)
    (hbehind : stop ≤ behind) (hlength : behind ≤ t.length) :
    valueStop t start behind = stop ↔
      (∀ c ∈ slice t stop behind, isBlank c = true) ∧
        ∀ c ∈ (slice t start stop).getLast?, isBlank c = false := by
  have hstop : stop ≤ t.length := Nat.le_trans hbehind hlength
  have hslice : (slice t start stop).length = stop - start := by
    rw [slice, List.length_drop, List.length_take_of_le hstop]
  have hvalue : start + (slice t start stop).length = stop := by omega
  unfold valueStop
  rw [← slice_append_slice hstart hbehind hstop]
  constructor
  · intro h
    -- What is left is as long as the value, so it is the value.
    have hprefix := List.rdropWhile_prefix isBlank (slice t start stop ++ slice t stop behind)
    have hkept : (slice t start stop ++ slice t stop behind).rdropWhile isBlank =
        slice t start stop := by
      refine (List.prefix_iff_eq_take.1 hprefix).trans (List.take_left' ?_)
      omega
    have hparts := @List.rdropWhile_append_rtakeWhile _ isBlank
      (slice t start stop ++ slice t stop behind)
    rw [hkept] at hparts
    refine ⟨fun c hc => List.mem_rtakeWhile_imp (List.append_cancel_left hparts ▸ hc), ?_⟩
    intro c hc
    have hne : (slice t start stop ++ slice t stop behind).rdropWhile isBlank ≠ [] := by
      rw [hkept]
      rintro hnil
      rw [hnil] at hc
      cases hc
    have hlast := List.rdropWhile_last_not isBlank _ hne
    simp only [hkept] at hlast
    rw [← List.getLast_of_mem_getLast? hc]
    simpa using hlast
  · rintro ⟨hblank, hlast⟩
    rw [rdropWhile_append_of_forall hblank, List.rdropWhile_eq_self_iff.2, hvalue]
    intro hne
    rw [hlast _ (List.getLast?_eq_getLast_of_ne_nil hne)]
    exact Bool.false_ne_true

/-! ## Arguments -/

/-- The bundle argument of the call between two parentheses, with the end of its value: the next
comma outside all inner delimiters, or the end of the call. -/
structure IsHostArgument (t : Text) (openParen closeParen : Nat) (argument : Span) (stop : Nat) :
    Prop where
  shape : hostArgumentPattern.MatchesAt (t.take closeParen) argument
  outside : Outside t (openParen + 1) argument.start
  comes : Outside t (openParen + 1) stop
  ends : t[stop]? = some ',' ∨ stop = closeParen
  behind : argument.stop ≤ stop
  inside : stop ≤ closeParen
  first : ∀ k, Outside t (openParen + 1) k → t[k]? = some ',' → argument.stop ≤ k → stop ≤ k

/-- What ends the expression of a value. -/
def hostStops : Text := [',', ')']

theorem isSimple_of_mem_hostStops : ∀ c ∈ hostStops, IsSimple c := by decide

theorem takesSimple_hostArgumentPattern : hostArgumentPattern.TakesOnly IsSimple := by
  have hblanks : blanks.TakesOnly IsSimple := fun c hc => .of_isBlank hc
  have hsign : (one fun c => c == ':' || c == '=').TakesOnly IsSimple := by
    intro c hc
    simp only [Bool.or_eq_true, beq_iff_eq] at hc
    rcases hc with rfl | rfl <;> decide
  have hword : (word hostArgument).TakesOnly IsSimple := TakesOnly.word_iff.2 (by decide)
  exact ⟨⟨⟨⟨trivial, hword⟩, hblanks⟩, hsign⟩, hblanks⟩

/-- A call ends with its opening parenthesis. -/
theorem exists_openParen {pattern : Pattern} {t : Text} {call : Span}
    (h : (pattern ++ word "(").MatchesAt t call) :
    ∃ openParen, call.stop = openParen + 1 ∧ t[openParen]? = some '(' := by
  obtain ⟨middle, -, hle, hlength, hmatches⟩ := matchesAt_both h
  obtain ⟨rest, hdrop, hplace⟩ := matches_text_iff.1 hmatches
  have hindex := congrArg Place.index hplace
  simp only [placeBetween, List.length_append] at hdrop hindex hle hlength
  rw [List.length_take_of_le hlength, List.length_take_of_le (Nat.le_trans hle hlength)] at hindex
  exact ⟨middle, hindex, by rw [← List.head?_drop, hdrop]; rfl⟩

theorem exists_hostCall {t : Text} {call : Span}
    (h : (defaultHostCallPattern.search t).or (hostCallPattern.search t) = some call) :
    ∃ openParen, call.stop = openParen + 1 ∧ t[openParen]? = some '(' := by
  rcases Option.or_eq_some_iff.1 h with h | ⟨-, h⟩
  · exact exists_openParen (matchesAt_of_search h)
  · exact exists_openParen (matchesAt_of_search h)

theorem isSome_searchAfter {pattern : Pattern} {t : Text} {start : Nat} {span : Span}
    (hstart : start ≤ span.start) (h : pattern.MatchesAt t span) :
    (pattern.searchAfter t start).isSome = true := by
  obtain ⟨hle, hlength, hmatches⟩ := h
  have htake : (t.take start).length = start := List.length_take_of_le (by omega)
  have hfound := isSome_searchFrom_iff pattern (t.take start) (t.drop start)
  rw [htake] at hfound
  refine hfound.2 ⟨slice t start span.start, t.drop span.start,
    (slice_append_drop hstart).symm, placeBetween (t.take span.stop) (t.drop span.stop), ?_⟩
  rw [take_append_slice hstart]
  exact hmatches

/-- Behind the expression that begins at `start` only blanks stand before a comma or the end of the
call, and the part of it that is replaced does not end with a blank. -/
@[mk_iff]
structure EndsWithExpression (t : Text) (start closeParen : Nat) : Prop where
  inside : skipBlanks t (expressionStop t start hostStops) ≤ closeParen
  ends : t[skipBlanks t (expressionStop t start hostStops)]? = some ',' ∨
    skipBlanks t (expressionStop t start hostStops) = closeParen
  trimmed : ∀ c ∈ (slice t start
    (trimmedStop t start (expressionStop t start hostStops))).getLast?, isBlank c = false

section Call

variable {t : Text} {openParen closeParen : Nat} (hopen : t[openParen]? = some '(')
  (hclose : matchingCloser t openParen = some closeParen)

include hopen hclose

theorem getElem?_closeParen : openParen < closeParen ∧ t[closeParen]? = some ')' := by
  obtain ⟨opener, closer, hopener, hkind, hle, hcloser⟩ := matchingCloser_eq_some hclose
  obtain rfl := Option.some.inj (hopen.symm.trans hopener)
  obtain rfl := Option.some.inj hkind
  refine ⟨Nat.lt_of_le_of_ne hle ?_, hcloser⟩
  rintro rfl
  exact absurd (hopen.symm.trans hcloser) (by decide)

/-- An argument that is put in is the first one: between it and the parenthesis, and behind it, are
blanks, and a comma when there are others. -/
theorem exists_addHostArgument :
    ∃ first before behind, openParen < first ∧ first ≤ closeParen ∧
      (∀ c ∈ slice t (openParen + 1) first, isBlank c = true) ∧ IsPadding before ∧
      (behind = [] ∧ first = closeParen ∨ ∃ gap, behind = ',' :: gap ∧ IsPadding gap) ∧
      addHostArgument t openParen closeParen = t.take (openParen + 1) ++
        (before ++ (hostArgument.toList ++ " = ".toList ++ hostValue) ++ behind) ++ t.drop first := by
  obtain ⟨hlt, hcloser⟩ := getElem?_closeParen hopen hclose
  have hlength : openParen + 1 ≤ t.length :=
    Nat.le_of_lt (Nat.lt_of_le_of_lt hlt (List.getElem?_eq_some_iff.1 hcloser).1)
  have hfirst := (skipBlanks_le hlength).1
  have hblank : ∀ c ∈ slice t (openParen + 1) (skipBlanks t (openParen + 1)),
      isBlank c = true := by
    rw [slice_skipBlanks]
    exact List.all_eq_true.1 List.all_takeWhile
  have hinside : skipBlanks t (openParen + 1) ≤ closeParen := by
    refine Nat.le_of_not_lt fun hbehind => ?_
    exact absurd (hblank _ (mem_slice_of_getElem? hcloser hlt hbehind)) (by decide)
  unfold addHostArgument
  simp only
  split
  · have hindent : IsIndentation (if skipBlanks t (openParen + 1) < closeParen then
        indentOfLine t (skipBlanks t (openParen + 1))
        else indentOfLine t openParen ++ "    ".toList) := by
      split
      · exact .indentOfLine t _
      · exact .append (.indentOfLine t _)
          (by decide : ∀ c ∈ "    ".toList, isIndent c = true)
    have hnothing : slice t (openParen + 1) (openParen + 1) = [] :=
      List.drop_eq_nil_of_le (List.length_take_le _ t)
    refine ⟨openParen + 1, _, [','], Nat.lt_succ_self _, hlt,
      hnothing ▸ List.forall_mem_nil _, (IsPadding.of_isIndentation hindent).cons,
      .inr ⟨[], rfl, isPadding_nil⟩, ?_⟩
    simp only [List.append_assoc, List.cons_append, List.nil_append]
  · split
    · next hnone =>
      refine ⟨closeParen, [], [], hlt, Nat.le_refl _, hnone ▸ hblank, isPadding_nil,
        .inl ⟨rfl, rfl⟩, ?_⟩
      simp only [List.nil_append, List.append_nil, List.append_assoc]
    · exact ⟨_, [], [',', ' '], hfirst, hinside, hblank, isPadding_nil,
        .inr ⟨[' '], rfl, List.forall_mem_singleton.2 (.inr rfl)⟩, by simp only [List.nil_append, List.append_assoc]⟩

section Argument

variable {argument : Span}
  (hargument : hostArgumentPattern.searchAfter (t.take closeParen) openParen = some argument)

include hargument

/-- The first text in the call that looks like the argument stands between the parentheses. -/
theorem bounds_of_hostArgument :
    hostArgumentPattern.MatchesAt (t.take closeParen) argument ∧ openParen < argument.start ∧
      argument.start ≤ argument.stop ∧ argument.stop ≤ closeParen ∧
      ∀ c ∈ slice t argument.start argument.stop, IsSimple c := by
  obtain ⟨hlt, hcloser⟩ := getElem?_closeParen hopen hclose
  have hlength : closeParen ≤ t.length := Nat.le_of_lt (lt_length_of_matchingCloser hclose)
  have htake : (t.take closeParen).length = closeParen := List.length_take_of_le hlength
  obtain ⟨hmatches, hstart⟩ := matchesAt_of_searchAfter
    (by rw [htake]; exact Nat.le_of_lt hlt) hargument
  have hle := hmatches.1
  have hstop : argument.stop ≤ closeParen := htake ▸ hmatches.2.1
  have hslice : slice (t.take closeParen) argument.start argument.stop =
      slice t argument.start argument.stop := by
    rw [slice, List.take_take, Nat.min_eq_left hstop, slice]
  have hsimple := takesSimple_hostArgumentPattern.mem_slice hmatches
  rw [hslice] at hsimple
  refine ⟨hmatches, Nat.lt_of_le_of_ne hstart fun heq => ?_, hle, hstop, hsimple⟩
  -- The text is not empty, and it would begin with the parenthesis.
  obtain ⟨middle, hsign, hblanks⟩ := matchesAt_both hmatches
  obtain ⟨before, hname, hone⟩ := matchesAt_both hsign
  obtain ⟨c, -, hc⟩ := matchesAt_one hone
  have hne : before ≠ middle := by
    rintro rfl
    rw [slice, List.drop_eq_nil_of_le (List.length_take_le _ _)] at hc
    cases hc
  have hbefore : argument.start ≤ before := hname.1
  have hmiddle : before ≤ middle := hone.1
  have hend : middle ≤ argument.stop := hblanks.1
  exact absurd (hsimple _ (mem_slice_of_getElem? hopen (Nat.le_of_eq heq.symm) (by omega)))
    (by decide)

/-- The text is the argument, and its value is replaced whole, exactly when it stands outside all
inner delimiters and its value ends with the expression. -/
theorem isHostArgument_iff :
    (∃ stop, IsHostArgument t openParen closeParen argument stop ∧
      trimmedStop t argument.stop (expressionStop t argument.stop hostStops) =
        valueStop t argument.stop stop) ↔
      Outside t (openParen + 1) argument.start ∧ EndsWithExpression t argument.stop closeParen := by
  obtain ⟨hmatches, hstart, hle, hstop, hsimple⟩ := bounds_of_hostArgument hopen hclose hargument
  obtain ⟨hlt, hcloser⟩ := getElem?_closeParen hopen hclose
  have hclength := lt_length_of_matchingCloser hclose
  have hvalue : argument.stop ≤ t.length := by omega
  obtain ⟨hexpression, hexpressionLength, -⟩ := expressionStop_spec hvalue hostStops
  obtain ⟨htrimmed, trail, htrail, hdrop⟩ := drop_trimmedStop hexpression hexpressionLength
  have htrimmedLe : trimmedStop t argument.stop (expressionStop t argument.stop hostStops) ≤
      expressionStop t argument.stop hostStops := Nat.sub_le _ _
  have hvalueOutside : Outside t argument.start argument.stop := .of_isSimple hle hvalue hsimple
  have hexpressionLe := @expressionStop_le hostStops t argument.stop
  have hexpressionOutside := @outside_expressionStop hostStops t argument.stop hvalue
  rw [endsWithExpression_iff]
  generalize expressionStop t argument.stop hostStops = e at *
  generalize trimmedStop t argument.stop e = s at *
  have htrail : ∀ c ∈ slice t s e, isBlank c = true := by
    rw [List.append_cancel_right ((slice_append_drop htrimmedLe).trans hdrop)]
    intro c hc
    rcases htrail c hc with hindent | rfl
    · exact isBlank_of_isIndent c hindent
    · decide
  -- A comma and the end of the call are ends of an expression, and no blanks.
  have hmark {k : Nat} (hk : t[k]? = some ',' ∨ k = closeParen) :
      ∃ c ∈ hostStops, t[k]? = some c := by
    rcases hk with hk | rfl
    · exact ⟨',', by decide, hk⟩
    · exact ⟨')', by decide, hcloser⟩
  have hends {k : Nat} (hk : t[k]? = some ',' ∨ k = closeParen) :
      k < t.length ∧ EndsExpression hostStops (t.drop k) := by
    obtain ⟨c, hc, hget⟩ := hmark hk
    exact ⟨(List.getElem?_eq_some_iff.1 hget).1, .of_mem hget hc⟩
  constructor
  · rintro ⟨f, hf, hsame⟩
    obtain ⟨hflength, hfends⟩ := hends hf.ends
    obtain ⟨d, hd, hget⟩ := hmark hf.ends
    have hle := hexpressionLe isSimple_of_mem_hostStops (Nat.le_of_lt hflength)
      ((hf.outside.trans hvalueOutside).of_le hf.comes hf.behind) hfends
    obtain ⟨hblank, hlast⟩ := (valueStop_eq_iff htrimmed (Nat.le_trans htrimmedLe hle)
      (Nat.le_of_lt hflength)).1 hsame.symm
    have hskip : skipBlanks t e = f := by
      refine skipBlanks_eq hle ?_ hget ((by decide : ∀ c ∈ hostStops, isBlank c = false) d hd)
      rw [← slice_append_slice htrimmedLe hle hexpressionLength, List.forall_mem_append] at hblank
      exact hblank.2
    rw [hskip]
    exact ⟨hf.outside, hf.inside, hf.ends, hlast⟩
  · rintro ⟨houtside, hinside, hbehind, hlast⟩
    obtain ⟨hflength, hfends⟩ := hends hbehind
    obtain ⟨hskip, -⟩ := skipBlanks_le hexpressionLength
    have hblank : ∀ c ∈ slice t e (skipBlanks t e), isBlank c = true := by
      rw [slice_skipBlanks]
      exact List.all_eq_true.1 List.all_takeWhile
    have hstopOutside := houtside.trans hvalueOutside
    refine ⟨skipBlanks t e, ⟨hmatches, houtside, ?_, hbehind, Nat.le_trans hexpression hskip,
      hinside, ?_⟩, ?_⟩
    · exact (hstopOutside.trans (hexpressionOutside (Nat.lt_of_le_of_lt hskip hflength))).trans
        (.skipBlanks hexpressionLength)
    · intro k hk hcomma hbefore
      have hle := hexpressionLe isSimple_of_mem_hostStops (Nat.le_of_lt (hends (.inl hcomma)).1)
        (hstopOutside.of_le hk hbefore) (hends (.inl hcomma)).2
      refine Nat.le_of_not_lt fun hlt => ?_
      exact absurd (hblank _ (mem_slice_of_getElem? hcomma hle hlt)) (by decide)
    · refine ((valueStop_eq_iff htrimmed (Nat.le_trans htrimmedLe hskip)
        (Nat.le_of_lt hflength)).2 ⟨?_, hlast⟩).symm
      rw [← slice_append_slice htrimmedLe hskip hexpressionLength, List.forall_mem_append]
      exact ⟨htrail, hblank⟩

/-- What stands from the end of the call on is not replaced when the reader comes to it. -/
theorem trimmedStop_le_closeParen (hstart : Outside t (openParen + 1) argument.start)
    (hend : Outside t (openParen + 1) closeParen) :
    trimmedStop t argument.stop (expressionStop t argument.stop hostStops) ≤ closeParen := by
  obtain ⟨-, -, hle, hstop, hsimple⟩ := bounds_of_hostArgument hopen hclose hargument
  have hlength := Nat.le_of_lt (lt_length_of_matchingCloser hclose)
  have hvalue : Outside t argument.start argument.stop :=
    .of_isSimple hle (Nat.le_trans hstop hlength) hsimple
  exact Nat.le_trans (Nat.sub_le _ _) (expressionStop_le isSimple_of_mem_hostStops hlength
    ((hstart.trans hvalue).of_le hend hstop)
    (.of_mem (getElem?_closeParen hopen hclose).2 (by decide)))

end Argument

end Call

/-- What becomes of the call of the host builder in a text with its imports. Without a text in the
call that looks like the bundle argument there is no such argument, and it is put in as the first
one. Else the first such text gets the new value: that is the argument, and its value is replaced
whole, exactly when the text stands outside all inner delimiters and its value ends with its
expression; and what stands from the end of the call on is kept when the reader comes to it. -/
theorem host_argument_set {t : Text} (hchanged : Installer.reactHost.apply t ≠ t) {imported : Text}
    (himported : imported = ensureImports .line t importsInKotlin) :
    ∃ call openParen closeParen,
      (defaultHostCallPattern.search imported).or (hostCallPattern.search imported) = some call ∧
      call.stop = openParen + 1 ∧ matchingCloser imported openParen = some closeParen ∧
      (hostArgumentPattern.searchAfter (imported.take closeParen) openParen = none →
        (∀ argument stop, ¬IsHostArgument imported openParen closeParen argument stop) ∧
        ∃ first before behind, openParen < first ∧ first ≤ closeParen ∧
          (∀ c ∈ slice imported (openParen + 1) first, isBlank c = true) ∧ IsPadding before ∧
          (behind = [] ∧ first = closeParen ∨ ∃ gap, behind = ',' :: gap ∧ IsPadding gap) ∧
          Installer.reactHost.apply t = imported.take (openParen + 1) ++
            (before ++ (hostArgument.toList ++ " = ".toList ++ hostValue) ++ behind) ++
              imported.drop first) ∧
      ∀ argument,
        hostArgumentPattern.searchAfter (imported.take closeParen) openParen = some argument →
        openParen < argument.start ∧ argument.stop ≤ closeParen ∧
        ∃ replaced, argument.stop ≤ replaced ∧
          Installer.reactHost.apply t =
            imported.take argument.stop ++ hostValue ++ imported.drop replaced ∧
          ((∃ stop, IsHostArgument imported openParen closeParen argument stop ∧
              replaced = valueStop imported argument.stop stop) ↔
            Outside imported (openParen + 1) argument.start ∧
              EndsWithExpression imported argument.stop closeParen) ∧
          (Outside imported (openParen + 1) argument.start →
            Outside imported (openParen + 1) closeParen → replaced ≤ closeParen) := by
  have hout : installInHostCall imported = some (Installer.reactHost.apply t) :=
    himported ▸ Installer.install_of_apply_ne hchanged
  generalize Installer.reactHost.apply t = out at hout ⊢
  simp only [installInHostCall, setHostArgument, Option.bind_eq_bind,
    Option.bind_eq_some_iff] at hout
  obtain ⟨call, hcall, closeParen, hclose, hout⟩ := hout
  obtain ⟨openParen, hstop, hopen⟩ := exists_hostCall hcall
  rw [hstop, Nat.add_sub_cancel] at hclose hout
  refine ⟨call, openParen, closeParen, hcall, hstop, hclose, fun hnone => ⟨?_, ?_⟩, ?_⟩
  · intro argument stop h
    have hfound := isSome_searchAfter (Nat.le_of_succ_le h.outside.le) h.shape
    rw [hnone] at hfound
    cases hfound
  · rw [hnone] at hout
    rw [← Option.some.inj hout]
    exact exists_addHostArgument hopen hclose
  · intro argument hargument
    rw [hargument] at hout
    obtain ⟨-, hstart, -, hinside, -⟩ := bounds_of_hostArgument hopen hclose hargument
    have hlength : argument.stop ≤ imported.length :=
      Nat.le_trans hinside (Nat.le_of_lt (lt_length_of_matchingCloser hclose))
    obtain ⟨hexpression, hexpressionLength, -⟩ := expressionStop_spec hlength hostStops
    exact ⟨hstart, hinside, _, (drop_trimmedStop hexpression hexpressionLength).1,
      (Option.some.inj hout).symm, isHostArgument_iff hopen hclose hargument,
      trimmedStop_le_closeParen hopen hclose hargument⟩

/-- A call of the host builder whose bundle argument shares its line with the end of the call. -/
def hostCallOnLine : Text :=
  ("import com.stallion.Stallion\n" ++
    "val host = getDefaultReactHost(jsBundleFilePath = null)\n").toList

theorem host_argument_set_hostCallOnLine :
    ∃ argument stop, IsHostArgument hostCallOnLine 59 83 argument stop ∧
      Installer.reactHost.apply hostCallOnLine = hostCallOnLine.take argument.stop ++ hostValue ++
        hostCallOnLine.drop (valueStop hostCallOnLine argument.stop stop) := by
  have hcall : (defaultHostCallPattern.search hostCallOnLine).or
      (hostCallPattern.search hostCallOnLine) = some ⟨40, 60⟩ := by decide
  have hclose : matchingCloser hostCallOnLine 59 = some 83 := by decide
  have hargument : hostArgumentPattern.searchAfter (hostCallOnLine.take 83) 59 = some ⟨60, 79⟩ := by
    decide
  obtain ⟨call, openParen, closeParen, hcall', hstop, hclose', -, hset⟩ :=
    @host_argument_set hostCallOnLine (by decide +kernel) hostCallOnLine (by decide +kernel)
  obtain rfl := Option.some.inj (hcall.symm.trans hcall')
  obtain rfl : 59 = openParen := Nat.succ.inj hstop
  obtain rfl := Option.some.inj (hclose.symm.trans hclose')
  obtain ⟨-, -, replaced, -, hout, hiff, -⟩ := hset ⟨60, 79⟩ hargument
  have hlast : (slice hostCallOnLine 79 (trimmedStop hostCallOnLine 79
      (expressionStop hostCallOnLine 79 hostStops))).getLast? = some 'l' := by decide
  obtain ⟨stop, hargument, rfl⟩ := hiff.2
    ⟨.refl, ⟨by decide, .inr (by decide), fun c hc => by
      obtain rfl := Option.some.inj (hlast.symm.trans hc)
      decide⟩⟩
  exact ⟨_, stop, hargument, hout⟩

/-- A call of the host builder whose bundle argument goes on on the next line. -/
def hostCallOverLines : Text :=
  ("import com.stallion.Stallion\n" ++
    "val host = getDefaultReactHost(jsBundleFilePath = a\n  ?: b)\n").toList

/-- Only the first line of the value is replaced. -/
theorem value_cut_at_lineEnd :
    (defaultHostCallPattern.search hostCallOverLines).or
        (hostCallPattern.search hostCallOverLines) = some ⟨40, 60⟩ ∧
      matchingCloser hostCallOverLines 59 = some 87 ∧
      Installer.reactHost.apply hostCallOverLines ≠ hostCallOverLines ∧
      ∃ argument stop, IsHostArgument hostCallOverLines 59 87 argument stop ∧
        Installer.reactHost.apply hostCallOverLines ≠
          hostCallOverLines.take argument.stop ++ hostValue ++
            hostCallOverLines.drop (valueStop hostCallOverLines argument.stop stop) := by
  have hargument :
      hostArgumentPattern.searchAfter (hostCallOverLines.take 87) 59 = some ⟨60, 79⟩ := by
    decide
  have hlength : (hostCallOverLines.take 87).length = 87 := by decide
  have hmatches := (matchesAt_of_searchAfter (by rw [hlength]; decide) hargument).1
  refine ⟨by decide +kernel, by decide +kernel, by decide +kernel, ⟨60, 79⟩, 87,
    ⟨hmatches, .refl, ?_, .inr rfl, by decide, Nat.le_refl _, ?_⟩, by decide +kernel⟩
  · exact .of_isSimple (by decide) (by decide) (by decide)
  · intro k hk hcomma hstart
    have hnone : ',' ∉ slice hostCallOverLines 79 87 := by decide
    exact Nat.le_of_not_lt fun hlt => hnone (mem_slice_of_getElem? hcomma hstart hlt)

end BundleHook
