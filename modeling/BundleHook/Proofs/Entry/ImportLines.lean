import BundleHook.Proofs.Code.Stretches
import BundleHook.Proofs.Entry.HookRendering
import BundleHook.Proofs.Text.LineSplicing

/-!
# Import lines

An import is present in a text when a line of the text is one of its spellings, with nothing but
spaces and tabs around it. Adding the missing imports puts whole lines at starts of lines, so that
every line stays and all the imports are present in the end.

* `standsAlone_iff` — presence as a property of lines;
* `ImportsAdded` — what adding the missing imports does to a text;
* `ImportsAdded.isPresent` — the imports are present in the text that comes of it;
* `standsAlone_splice` — a line stays when a part of the text is exchanged that it does not touch.
-/

namespace BundleHook.Entry

open Text Code Code.Pattern

/-! ## Lines that are a statement -/

/-- A text without line feeds that begins and ends with a character that is not blank. -/
def IsStatement (s : Text) : Prop :=
  '\n' ∉ s ∧ s.head?.all isBlank = false ∧ s.getLast?.all isBlank = false

instance (s : Text) : Decidable (IsStatement s) :=
  inferInstanceAs (Decidable (_ ∧ _ ∧ _))

/-- The line is the statement with spaces and tabs around it, and perhaps with a carriage return at
its end. -/
def FillsLine (s line : Text) : Prop :=
  ∃ before behind ending, IsIndentation before ∧ IsIndentation behind ∧
    (ending = [] ∨ ending = ['\r']) ∧ line = before ++ s ++ behind ++ ending

theorem fillsLine_self (s : Text) : FillsLine s s :=
  ⟨[], [], [], List.forall_mem_nil _, List.forall_mem_nil _, .inl rfl, by simp⟩

theorem isLineStart_placeBetween {before here : Text} :
    (placeBetween before here).isLineStart = true ↔ EndsLine before := by
  unfold placeBetween Place.isLineStart EndsLine
  cases h : before.getLast? with
  | none => simp [List.getLast?_eq_none_iff.1 h]
  | some c =>
      have hne : before ≠ [] := fun hnil => by simp [hnil] at h
      simp [hne]

theorem isLineEnd_placeBetween {before here : Text} :
    (placeBetween before here).isLineEnd = true ↔ BreaksLine here := by
  cases here <;> simp [placeBetween, Place.isLineEnd, BreaksLine]

theorem matches_lineStart_iff {before here : Text} {q : Place} :
    Matches lineStart (placeBetween before here) q ↔
      EndsLine before ∧ q = placeBetween before here := by
  constructor
  · intro h
    cases h with
    | lineStart here => exact ⟨isLineStart_placeBetween.1 here, rfl⟩
  · rintro ⟨h, rfl⟩
    exact .lineStart (isLineStart_placeBetween.2 h)

theorem matches_lineEnd_iff {before here : Text} {q : Place} :
    Matches lineEnd (placeBetween before here) q ↔
      BreaksLine here ∧ q = placeBetween before here := by
  constructor
  · intro h
    cases h with
    | lineEnd here => exact ⟨isLineEnd_placeBetween.1 here, rfl⟩
  · rintro ⟨h, rfl⟩
    exact .lineEnd (isLineEnd_placeBetween.2 h)

theorem matches_return_iff {before here : Text} {q : Place} :
    Matches (maybe (word "\r")) (placeBetween before here) q ↔
      ∃ ending rest, (ending = [] ∨ ending = ['\r']) ∧ here = ending ++ rest ∧
        q = placeBetween (before ++ ending) rest := by
  rw [matches_maybe_iff, word, matches_text_iff]
  constructor
  · rintro (⟨rest, rfl, rfl⟩ | rfl)
    · exact ⟨_, rest, .inr rfl, rfl, rfl⟩
    · exact ⟨[], here, .inl rfl, rfl, by rw [List.append_nil]⟩
  · rintro ⟨ending, rest, rfl | rfl, rfl, rfl⟩
    · exact .inr (by rw [List.append_nil])
    · exact .inl ⟨rest, rfl, rfl⟩

/-- A statement stands alone when some line of the text is filled by it. -/
theorem standsAlone_iff {s : Text} (hs : '\n' ∉ s) (t : Text) :
    standsAlone t s = true ↔ ∃ line ∈ splitOn '\n' t, FillsLine s line := by
  simp only [standsAlone, occursIn_iff, matches_both_iff]
  constructor
  · rintro ⟨a, here, rfl, q, _, ⟨_, ⟨_, ⟨_, ⟨_, hstart, hbefore⟩, htext⟩, hbehind⟩, hending⟩, hend⟩
    obtain ⟨ha, rfl⟩ := matches_lineStart_iff.1 hstart
    obtain ⟨before, rest, rfl, hindent, rfl⟩ := matches_many_iff.1 hbefore
    obtain ⟨rest, rfl, rfl⟩ := matches_text_iff.1 htext
    obtain ⟨behind, rest, rfl, hindent', rfl⟩ := matches_many_iff.1 hbehind
    obtain ⟨ending, c, hreturn, rfl, rfl⟩ := matches_return_iff.1 hending
    obtain ⟨hc, -⟩ := matches_lineEnd_iff.1 hend
    refine ⟨before ++ s ++ behind ++ ending, ?_, before, behind, ending, hindent, hindent', hreturn,
      rfl⟩
    have hfeed {t : Text} (h : IsIndentation t) : '\n' ∉ t := fun hmem => absurd (h _ hmem) (by decide)
    have hline : '\n' ∉ before ++ s ++ behind ++ ending := by
      rcases hreturn with rfl | rfl <;> simp [hfeed hindent, hfeed hindent', hs]
    simpa using mem_lines_between ha hline hc
  · rintro ⟨line, hline, before, behind, ending, hindent, hindent', hreturn, rfl⟩
    obtain ⟨a, c, rfl, ha, hc⟩ := exists_of_mem_lines hline
    refine ⟨a, before ++ (s ++ (behind ++ (ending ++ c))), by simp, _, _,
      ⟨_, ⟨_, ⟨_, ⟨_, matches_lineStart_iff.2 ⟨ha, rfl⟩,
        matches_many_iff.2 ⟨before, _, rfl, hindent, rfl⟩⟩,
        matches_text_iff.2 ⟨_, rfl, rfl⟩⟩,
        matches_many_iff.2 ⟨behind, _, rfl, hindent', rfl⟩⟩,
        matches_return_iff.2 ⟨ending, c, hreturn, rfl, rfl⟩⟩,
      matches_lineEnd_iff.2 ⟨hc, rfl⟩⟩

/-! ## Adding imports -/

/-- The text has become the other one: each import that was not present in its turn has been added
as a whole line at the start of a line. -/
inductive ImportsAdded : List RequiredImport → Text → Text → Prop where
  | done (t : Text) : ImportsAdded [] t t
  | present {required : RequiredImport} {others : List RequiredImport} {t out : Text}
      (here : required.isPresent t = true) (more : ImportsAdded others t out) :
      ImportsAdded (required :: others) t out
  | missing {required : RequiredImport} {others : List RequiredImport}
      {before behind ending out : Text} (absent : required.isPresent (before ++ behind) = false)
      (start : EndsLine before) (ending_eq : ending = ['\n'] ∨ ending = ['\r', '\n'])
      (more : ImportsAdded others (before ++ (required.statement ++ ending) ++ behind) out) :
      ImportsAdded (required :: others) (before ++ behind) out

/-- An import line ends with its line feed. -/
theorem endsLine_of_matchesAt {style : ImportStyle} {t : Text} {span : Span}
    (h : style.pattern.MatchesAt t span) : EndsLine (t.take span.stop) := by
  obtain ⟨first, hpattern⟩ : ∃ first, style.pattern = first ++ word "\n" := by
    cases style <;> exact ⟨_, rfl⟩
  obtain ⟨-, -, hmatches⟩ := h
  rw [hpattern] at hmatches
  obtain ⟨r, hfirst, hfeed⟩ := matches_both_iff.1 hmatches
  obtain ⟨taken, rest, -, rfl⟩ := hfirst.exists_taken
  obtain ⟨rest', -, hplace⟩ := matches_text_iff.1 hfeed
  have hlast : (t.take span.stop).getLast? =
      (t.take span.start ++ taken ++ "\n".toList).getLast? := congrArg Place.before hplace
  exact .inr (hlast.trans List.getLast?_concat)

theorem exists_addImport (style : ImportStyle) (statement t : Text) :
    ∃ before behind ending, t = before ++ behind ∧ EndsLine before ∧
      (ending = ['\n'] ∨ ending = ['\r', '\n']) ∧
      addImport style statement t = before ++ (statement ++ ending) ++ behind := by
  unfold addImport
  split
  · refine ⟨[], t, firstLineEnd t, rfl, .inl rfl, ?_, rfl⟩
    unfold firstLineEnd
    split
    · exact .inr rfl
    · exact .inl rfl
  · next last hlast =>
    have hmatches := matchesAt_of_mem_stretches (List.mem_of_getLast? hlast)
    refine ⟨t.take last.stop, t.drop last.stop,
      if ['\r', '\n'].isSuffixOf (slice t last.start last.stop) then ['\r', '\n'] else ['\n'],
      (List.take_append_drop _ t).symm, endsLine_of_matchesAt hmatches, ?_, ?_⟩
    · split
      · exact .inr rfl
      · exact .inl rfl
    · simp only [List.append_assoc]

theorem importsAdded_ensureImports (style : ImportStyle) (t : Text)
    (required : List RequiredImport) :
    ImportsAdded required t (ensureImports style t required) := by
  induction required generalizing t with
  | nil => exact .done t
  | cons first others ih =>
      have hothers := ih (ensureImport style t first)
      rw [ensureImports, List.foldl_cons]
      rw [ensureImport] at hothers ⊢
      split at hothers
      · next here =>
        rw [if_pos here]
        exact .present here hothers
      · next absent =>
        rw [if_neg absent]
        obtain ⟨before, behind, ending, rfl, hstart, hending, hadd⟩ :=
          exists_addImport style first.statement t
        rw [hadd] at hothers ⊢
        exact .missing (Bool.eq_false_iff.2 absent) hstart hending hothers

/-! ## Lines that stay -/

/-- A line stays when another text is put in where a line begins and with whole lines. -/
theorem standsAlone_insert {s a x c : Text} (hs : '\n' ∉ s) (ha : EndsLine a) (hx : EndsLine x)
    (h : standsAlone (a ++ c) s = true) : standsAlone (a ++ x ++ c) s = true := by
  rw [standsAlone_iff hs] at h ⊢
  obtain ⟨line, hline, hfills⟩ := h
  refine ⟨line, ?_, hfills⟩
  rw [lines_append_of_endsLine ha] at hline
  rw [List.append_assoc, lines_append_of_endsLine ha, lines_append_of_endsLine hx]
  rcases List.mem_append.1 hline with hline | hline
  · exact List.mem_append_left _ hline
  · exact List.mem_append_right _ (List.mem_append_right _ hline)

/-- A line stays when a part of the text is exchanged whose own and bordering lines are others. -/
theorem standsAlone_splice {s a m c : Text} (x : Text) (hs : '\n' ∉ s)
    (h : standsAlone (a ++ m ++ c) s = true)
    (htouched : ∀ line ∈ splitOn '\n' (lastLine a ++ m ++ firstLine c), ¬ FillsLine s line) :
    standsAlone (a ++ x ++ c) s = true := by
  rw [standsAlone_iff hs] at h ⊢
  obtain ⟨line, hline, hfills⟩ := h
  refine ⟨line, ?_, hfills⟩
  rw [lines_between, List.mem_append, List.mem_append] at hline ⊢
  rcases hline with (hline | hline) | hline
  · exact .inl (.inl hline)
  · exact absurd hfills (htouched line hline)
  · exact .inr hline

theorem infix_of_blank_append {a t w : Text} (hne : w ≠ []) (hw : ∀ c ∈ w, isBlank c = false)
    (ha : ∀ c ∈ a, isBlank c = true) (h : w <:+: a ++ t) : w <:+: t := by
  induction a with
  | nil => exact h
  | cons c a ih =>
      rcases List.infix_cons_iff.1 h with hprefix | hlater
      · cases w with
        | nil => exact absurd rfl hne
        | cons d w =>
            obtain rfl : d = c := (List.cons_prefix_cons.1 hprefix).1
            have hboth := (ha d List.mem_cons_self).symm.trans (hw d List.mem_cons_self)
            cases hboth
      · exact ih (fun d hd => ha d (List.mem_cons_of_mem c hd)) hlater

namespace FillsLine

theorem of_blank_append {s a x : Text} (hs : IsStatement s) (ha : ∀ c ∈ a, isBlank c = true)
    (h : FillsLine s (a ++ x)) : FillsLine s x := by
  obtain ⟨before, behind, ending, hbefore, hbehind, hending, h⟩ := h
  rw [List.append_assoc, List.append_assoc] at h
  rcases List.append_eq_append_iff.1 h with ⟨indent, rfl, rfl⟩ | ⟨taken, rfl, htaken⟩
  · refine ⟨indent, behind, ending, fun c hc => hbefore c (List.mem_append_right a hc), hbehind,
      hending, by simp⟩
  · -- What the blank part takes beyond the indentation would begin with the statement.
    cases taken with
    | nil =>
        exact ⟨[], behind, ending, List.forall_mem_nil _, hbehind, hending, by
          simpa using htaken.symm⟩
    | cons d taken =>
        obtain ⟨-, hhead, -⟩ := hs
        cases s with
        | nil => cases hhead
        | cons e s =>
            obtain ⟨rfl, -⟩ := List.cons.inj htaken
            rw [List.head?_cons, Option.all_some] at hhead
            rw [ha e (by simp)] at hhead
            cases hhead

theorem of_append_blank {s x b : Text} (hs : IsStatement s) (hb : ∀ c ∈ b, isBlank c = true)
    (h : FillsLine s (x ++ b)) : FillsLine s x := by
  obtain ⟨before, behind, ending, hbefore, hbehind, hending, h⟩ := h
  rw [List.append_assoc (before ++ s)] at h
  rcases List.append_eq_append_iff.1 h with ⟨taken, htaken, rfl⟩ | ⟨kept, rfl, hkept⟩
  · -- What the blank part takes of the statement would hold its last character.
    rcases List.eq_nil_or_concat taken with rfl | ⟨front, d, rfl⟩
    · exact ⟨before, [], [], hbefore, List.forall_mem_nil _, .inl rfl, by simpa using htaken.symm⟩
    · obtain ⟨-, -, hlast⟩ := hs
      rcases List.eq_nil_or_concat s with rfl | ⟨init, e, rfl⟩
      · cases hlast
      · have hboth := congrArg List.getLast? htaken
        rw [List.concat_eq_append, List.concat_eq_append, ← List.append_assoc, ← List.append_assoc,
          List.getLast?_concat, List.getLast?_concat, Option.some.injEq] at hboth
        rw [List.concat_eq_append, List.getLast?_concat, Option.all_some, hboth, hb d (by simp)]
          at hlast
        cases hlast
  · rcases List.append_eq_append_iff.1 hkept with ⟨ending', rfl, rfl⟩ | ⟨cut, rfl, rfl⟩
    · refine ⟨before, behind, ending', hbefore, hbehind, ?_, by simp⟩
      rcases hending with hending | hending
      · exact .inl (List.append_eq_nil_iff.1 hending).1
      · rcases List.append_eq_singleton_iff.1 hending with ⟨hnil, -⟩ | ⟨hreturn, -⟩
        · exact .inl hnil
        · exact .inr hreturn
    · exact ⟨before, kept, [], hbefore, fun c hc => hbehind c (List.mem_append_left _ hc),
        .inl rfl, by simp⟩

/-- A word without blanks on the line is a part of the statement. -/
theorem infix_of_infix {s line w : Text} (h : FillsLine s line) (hne : w ≠ [])
    (hw : ∀ c ∈ w, isBlank c = false) (hin : w <:+: line) : w <:+: s := by
  obtain ⟨before, behind, ending, hbefore, hbehind, hending, rfl⟩ := h
  have hblank : ∀ c ∈ behind ++ ending, isBlank c = true := by
    intro c hc
    rcases List.mem_append.1 hc with hc | hc
    · exact isBlank_of_isIndent c (hbehind c hc)
    · rcases hending with rfl | rfl
      · cases hc
      · rw [List.mem_singleton.1 hc]
        decide
  rw [List.append_assoc, List.append_assoc] at hin
  have hright := infix_of_blank_append hne hw
    (fun c hc => isBlank_of_isIndent c (hbefore c hc)) hin
  rw [← List.reverse_infix, List.reverse_append] at hright
  exact List.reverse_infix.1 (infix_of_blank_append (by simpa using hne) (by simpa using hw)
    (fun c hc => hblank c (List.mem_reverse.1 hc)) hright)

end FillsLine

/-! ## Imports in the end -/

namespace RequiredImport

/-- All spellings of the import. -/
def spellings (required : RequiredImport) : List Text := required.statement :: required.aliases

theorem isPresent_iff {required : RequiredImport} {t : Text} :
    required.isPresent t = true ↔ ∃ s ∈ required.spellings, standsAlone t s = true :=
  List.any_eq_true

end RequiredImport

namespace ImportsAdded

variable {imports : List RequiredImport} {t out : Text}

/-- Adding imports leaves every line where it is. -/
theorem standsAlone {s : Text} (hs : '\n' ∉ s) (h : ImportsAdded imports t out)
    (ht : standsAlone t s = true) : Entry.standsAlone out s = true := by
  induction h with
  | done => exact ht
  | present _ _ ih => exact ih ht
  | @missing required _ before _ ending _ _ start ending_eq _ ih =>
      have hending : EndsLine (required.statement ++ ending) := by
        rcases ending_eq with rfl | rfl <;> exact .inr (by simp)
      exact ih (standsAlone_insert hs start hending ht)

/-- In the end every import is present. -/
theorem isPresent (hclean : ∀ required ∈ imports, ∀ s ∈ required.spellings, '\n' ∉ s)
    (h : ImportsAdded imports t out) : ∀ required ∈ imports, required.isPresent out = true := by
  induction h with
  | done => exact List.forall_mem_nil _
  | present here more ih =>
      obtain ⟨hfirst, hothers⟩ := List.forall_mem_cons.1 hclean
      obtain ⟨s, hs, halone⟩ := RequiredImport.isPresent_iff.1 here
      exact List.forall_mem_cons.2
        ⟨RequiredImport.isPresent_iff.2 ⟨s, hs, more.standsAlone (hfirst s hs) halone⟩, ih hothers⟩
  | @missing required _ before behind ending _ _ start ending_eq more ih =>
      obtain ⟨hfirst, hothers⟩ := List.forall_mem_cons.1 hclean
      have hs : required.statement ∈ required.spellings := List.mem_cons_self
      have hline := hfirst _ hs
      have halone : Entry.standsAlone (before ++ (required.statement ++ ending) ++ behind)
          required.statement = true := by
        refine (standsAlone_iff hline _).2 ?_
        rcases ending_eq with rfl | rfl
        · refine ⟨required.statement, ?_, fillsLine_self _⟩
          have hmem := mem_lines_between start hline (.inr rfl : BreaksLine ('\n' :: behind))
          simpa using hmem
        · refine ⟨required.statement ++ ['\r'], ?_, [], [], ['\r'], List.forall_mem_nil _,
            List.forall_mem_nil _, .inr rfl, by simp⟩
          have hreturn : '\n' ∉ required.statement ++ ['\r'] := by simp [hline]
          have hmem := mem_lines_between start hreturn (.inr rfl : BreaksLine ('\n' :: behind))
          simpa using hmem
      exact List.forall_mem_cons.2
        ⟨RequiredImport.isPresent_iff.2 ⟨_, hs, more.standsAlone hline halone⟩, ih hothers⟩

end ImportsAdded

end BundleHook.Entry
