import BundleHook.Proofs.Code.Apart
import BundleHook.Proofs.Code.Taking
import BundleHook.Proofs.Entry.ImportLines
import BundleHook.Proofs.Text.LineEnds
import Mathlib.Data.List.Nodup
import Mathlib.Data.List.TakeWhile

/-!
# Where imports are added

An import line is a whole line of its file, so the walk over the file finds every one of them. A
missing import goes directly behind the last one, or to the start of a file without any, and its
line ends as a line of the file does.

* `isWholeLine_of_matchesAt`, `liesApart_pattern`: import lines are whole lines and lie apart;
* `ImportsPlaced`: what adding the missing imports does to a text, line by line;
* `imports_added_once`: every import is present in the end, each missing one on one new line, and
  nothing else has changed.
-/

namespace BundleHook.Entry

open Text Code Code.Pattern

/-! ## Whole lines -/

/-- The part of the text is a line with its line feed. -/
def IsWholeLine (t : Text) (span : Span) : Prop :=
  EndsLine (t.take span.start) ∧
    ∃ line, '\n' ∉ line ∧ slice t span.start span.stop = line ++ ['\n']

namespace IsWholeLine

variable {t : Text} {span other : Span}

/-- A whole line by offsets: it takes some text, a line feed is its last character and no other
one, and one stands before it unless it is the first line. -/
theorem feeds (h : IsWholeLine t span) (hle : span.start ≤ span.stop)
    (hlength : span.stop ≤ t.length) :
    span.start < span.stop ∧
      (span.start = 0 ∨ t[span.start - 1]? = some '\n') ∧
      ∀ k, span.start ≤ k → k < span.stop → (t[k]? = some '\n' ↔ k + 1 = span.stop) := by
  obtain ⟨hstart, line, hline, hslice⟩ := h
  have htake : t.take span.stop = t.take span.start ++ (line ++ ['\n']) := by
    rw [← hslice, take_append_slice hle]
  have hfront : (t.take span.start).length = span.start :=
    List.length_take_of_le (Nat.le_trans hle hlength)
  have hstop : span.stop = span.start + line.length + 1 := by
    have hlengths := congrArg List.length htake
    rw [List.length_take_of_le hlength, List.length_append, hfront, List.length_append,
      List.length_singleton] at hlengths
    omega
  refine ⟨by omega, ?_, fun k hk hkstop => ?_⟩
  · rcases hstart with hnil | hfeed
    · exact .inl (hfront ▸ congrArg List.length hnil)
    · refine Nat.eq_zero_or_pos span.start |>.imp_right fun hpos => ?_
      rw [List.getLast?_eq_getElem?, hfront, List.getElem?_take_of_lt (by omega)] at hfeed
      exact hfeed
  · rw [← List.getElem?_take_of_lt hkstop, htake,
      List.getElem?_append_right (by rw [hfront]; exact hk), hfront]
    by_cases hlast : k + 1 = span.stop
    · have hk' : k - span.start = line.length := by omega
      rw [hk', List.getElem?_concat_length]
      exact iff_of_true rfl hlast
    · rw [List.getElem?_append_left (by omega)]
      exact iff_of_false (fun hfeed => hline (List.mem_of_getElem? hfeed)) hlast

/-- Whole lines that overlap are one line. -/
theorem eq_of_overlap (h : IsWholeLine t span) (hle : span.start ≤ span.stop)
    (hlength : span.stop ≤ t.length) (h' : IsWholeLine t other) (hle' : other.start ≤ other.stop)
    (hlength' : other.stop ≤ t.length) (hspan : span.start < other.stop)
    (hother : other.start < span.stop) : span = other := by
  obtain ⟨hpos, hbefore, hfeeds⟩ := h.feeds hle hlength
  obtain ⟨hpos', hbefore', hfeeds'⟩ := h'.feeds hle' hlength'
  have hstart : span.start = other.start := by
    rcases Nat.lt_trichotomy span.start other.start with hlt | heq | hlt
    · have hfeed := hbefore'.resolve_left (by omega)
      have hend := (hfeeds (other.start - 1) (by omega) (by omega)).1 hfeed
      omega
    · exact heq
    · have hfeed := hbefore.resolve_left (by omega)
      have hend := (hfeeds' (span.start - 1) (by omega) (by omega)).1 hfeed
      omega
  have hstop : span.stop = other.stop := by
    rcases Nat.lt_trichotomy span.stop other.stop with hlt | heq | hlt
    · have hfeed := (hfeeds (span.stop - 1) (by omega) (by omega)).2 (by omega)
      have hend := (hfeeds' (span.stop - 1) (by omega) (by omega)).1 hfeed
      omega
    · exact heq
    · have hfeed := (hfeeds' (other.stop - 1) (by omega) (by omega)).2 (by omega)
      have hend := (hfeeds (other.stop - 1) (by omega) (by omega)).1 hfeed
      omega
  cases span
  cases other
  simp_all

end IsWholeLine

/-- The pattern matches only where a line begins. -/
def StartsLine (pattern : Pattern) : Prop :=
  ∀ (t : Text) (span : Span), pattern.MatchesAt t span → EndsLine (t.take span.start)

theorem startsLine_lineStart : StartsLine lineStart :=
  fun _ _ h => (matches_lineStart_iff.1 h.2.2).1

theorem StartsLine.append {first : Pattern} (h : StartsLine first) (second : Pattern) :
    StartsLine (first ++ second) := by
  intro t span hmatches
  obtain ⟨middle, hfirst, -⟩ := matchesAt_both hmatches
  exact h t ⟨span.start, middle⟩ hfirst

namespace ImportStyle

variable {style : ImportStyle} {t : Text} {span : Span}

theorem exists_body (style : ImportStyle) :
    ∃ body, style.pattern = body ++ word "\n" ∧ StartsLine body ∧
      body.TakesOnly (· ≠ '\n') := by
  have hindent : indent.TakesOnly (· ≠ '\n') := by
    rintro c hc rfl
    cases hc
  have hgap : indentGap.TakesOnly (· ≠ '\n') := ⟨hindent, hindent⟩
  have hcontent : pattern.content.TakesOnly (· ≠ '\n') := by
    constructor <;> exact fun c hc => bne_iff_ne.1 hc
  have hword {w : String} (h : '\n' ∉ w.toList) : (word w).TakesOnly (· ≠ '\n') :=
    TakesOnly.word_iff.2 fun c hc heq => h (heq ▸ hc)
  cases style with
  | line =>
      exact ⟨_, rfl, (((startsLine_lineStart.append _).append _).append _).append _,
        ⟨⟨⟨trivial, hindent⟩, hword (by decide)⟩, hgap⟩, hcontent⟩
  | terminated =>
      exact ⟨_, rfl, ((((((startsLine_lineStart.append _).append _).append _).append _).append
        _).append _).append _, ⟨⟨⟨⟨⟨⟨trivial, hindent⟩, hword (by decide)⟩, hgap⟩, hcontent⟩,
        hword (by decide)⟩, hindent⟩, TakesOnly.maybe_iff.2 (hword (by decide))⟩
  | directive =>
      exact ⟨_, rfl, (((startsLine_lineStart.append _).append _).append _).append _,
        ⟨⟨⟨trivial, hindent⟩, hword (by decide)⟩, hgap⟩, hcontent⟩

/-- An import line is a whole line. -/
theorem isWholeLine_of_matchesAt (h : style.pattern.MatchesAt t span) : IsWholeLine t span := by
  obtain ⟨body, hpattern, hstarts, htakes⟩ := exists_body style
  rw [hpattern] at h
  obtain ⟨middle, hbody, hfeed⟩ := matchesAt_both h
  refine ⟨hstarts t ⟨span.start, middle⟩ hbody, slice t span.start middle, fun hmem => ?_, ?_⟩
  · exact htakes.mem_slice hbody _ hmem rfl
  · have hslice : slice t middle span.stop = ['\n'] := slice_of_matchesAt_text hfeed
    rw [← hslice, slice_append_slice hbody.1 hfeed.1 hbody.2.1]

theorem liesApart_pattern (style : ImportStyle) (t : Text) : style.pattern.LiesApart t where
  takes _ h := ((isWholeLine_of_matchesAt h).feeds h.1 h.2.1).1
  apart _ _ h h' := (isWholeLine_of_matchesAt h).eq_of_overlap h.1 h.2.1
    (isWholeLine_of_matchesAt h') h'.1 h'.2.1

end ImportStyle

/-! ## Places for imports -/

/-- Where a missing import goes: behind the last import line of the text, or to the start of a text
without any. -/
inductive IsImportPlace (style : ImportStyle) (t : Text) : Nat → Prop where
  | behindLast {last : Span} (found : style.pattern.MatchesAt t last) (whole : IsWholeLine t last)
      (final : ∀ other, style.pattern.MatchesAt t other → other.stop ≤ last.stop) :
      IsImportPlace style t last.stop
  | atStart (none : ∀ other, ¬ style.pattern.MatchesAt t other) : IsImportPlace style t 0

/-- What may stand before the line feed of a new line: a carriage return if the text has one before
one of its line feeds, which serves as a model, and nothing if there is none before that. -/
inductive IsModelEnd (t : Text) : Text → Prop where
  | alone (none : '\n' ∉ t) : IsModelEnd t []
  | bare {before behind : Text} (split : t = before ++ '\n' :: behind)
      (h : before.getLast? ≠ some '\r') : IsModelEnd t []
  | returned {before behind : Text} (split : t = before ++ '\n' :: behind)
      (h : before.getLast? = some '\r') : IsModelEnd t ['\r']

/-- The text has become the other one: each import that was not present in its turn has been added
on one of these lines, in order. -/
inductive ImportsPlaced (style : ImportStyle) :
    List RequiredImport → Text → Text → (added : List Text) → Prop where
  | done (t : Text) : ImportsPlaced style [] t t []
  | present {required : RequiredImport} {others : List RequiredImport} {t out : Text}
      {added : List Text} (here : required.isPresent t = true)
      (more : ImportsPlaced style others t out added) :
      ImportsPlaced style (required :: others) t out added
  | missing {required : RequiredImport} {others : List RequiredImport} {t out mark : Text}
      {index : Nat} {added : List Text} (absent : required.isPresent t = false)
      (place : IsImportPlace style t index) (ends : IsModelEnd t mark)
      (more : ImportsPlaced style others
        (t.take index ++ (required.statement ++ mark ++ ['\n']) ++ t.drop index) out added) :
      ImportsPlaced style (required :: others) t out ((required.statement ++ mark) :: added)

section Adding

variable {style : ImportStyle} {t : Text}

theorem IsImportPlace.endsLine {index : Nat} (h : IsImportPlace style t index) :
    EndsLine (t.take index) := by
  cases h with
  | behindLast found => exact endsLine_of_matchesAt found
  | atStart => exact .inl rfl

theorem getLast?_of_endsLine {a line : Text} (ha : EndsLine a) :
    (a ++ line).getLast? = some '\r' ↔ line.getLast? = some '\r' := by
  rcases List.eq_nil_or_concat line with rfl | ⟨front, c, rfl⟩
  · rw [List.append_nil]
    rcases ha with rfl | hfeed
    · exact Iff.rfl
    · rw [hfeed]
      decide
  · rw [List.concat_eq_append, ← List.append_assoc, List.getLast?_concat, List.getLast?_concat]

theorem isSuffixOf_iff_getLast? {line : Text} :
    ['\r', '\n'].isSuffixOf (line ++ ['\n']) = true ↔ line.getLast? = some '\r' := by
  rw [List.isSuffixOf_iff_suffix, List.getLast?_eq_some_iff]
  refine exists_congr fun front => ?_
  have hsplit : front ++ ['\r', '\n'] = (front ++ ['\r']) ++ ['\n'] := by simp
  rw [hsplit, List.append_left_inj, eq_comm]

/-- The line feed of an import line serves as a model. -/
theorem isModelEnd_of_isWholeLine {span : Span} (h : IsWholeLine t span)
    (hle : span.start ≤ span.stop) :
    IsModelEnd t
      (if ['\r', '\n'].isSuffixOf (slice t span.start span.stop) then ['\r'] else []) := by
  obtain ⟨hstart, line, -, hslice⟩ := h
  have hsplit : t = t.take span.start ++ line ++ '\n' :: t.drop span.stop := by
    have hwhole := take_slice_drop (t := t) hle
    rw [hslice] at hwhole
    simpa using hwhole.symm
  rw [hslice]
  split
  · next hreturn =>
    exact .returned hsplit ((getLast?_of_endsLine hstart).2 (isSuffixOf_iff_getLast?.1 hreturn))
  · next hbare =>
    exact .bare hsplit fun hreturn =>
      hbare (isSuffixOf_iff_getLast?.2 ((getLast?_of_endsLine hstart).1 hreturn))

/-- The first line feed of the text serves as a model. -/
theorem exists_isModelEnd_firstLineEnd (t : Text) :
    ∃ mark, IsModelEnd t mark ∧ firstLineEnd t = mark ++ ['\n'] := by
  unfold firstLineEnd
  by_cases hfeed : '\n' ∈ t
  · obtain ⟨rest, hrest⟩ : ∃ rest, t.dropWhile (· != '\n') = '\n' :: rest := by
      have hhead := List.head?_dropWhile_not (· != '\n') t
      cases hdrop : t.dropWhile (· != '\n') with
      | nil => exact absurd rfl (bne_iff_ne.1 (List.dropWhile_eq_nil_iff.1 hdrop _ hfeed))
      | cons c rest =>
          rw [hdrop] at hhead
          obtain rfl : c = '\n' := by simpa using hhead
          exact ⟨rest, rfl⟩
    have hsplit : t = t.takeWhile (· != '\n') ++ '\n' :: rest := by
      rw [← hrest, List.takeWhile_append_dropWhile]
    have hlast : ['\r'].isSuffixOf (t.takeWhile (· != '\n')) = true ↔
        (t.takeWhile (· != '\n')).getLast? = some '\r' := by
      rw [List.isSuffixOf_iff_suffix, List.getLast?_eq_some_iff]
      exact exists_congr fun front => eq_comm
    rw [List.contains_iff_mem.2 hfeed, Bool.and_true]
    split
    · next hreturn => exact ⟨['\r'], .returned hsplit (hlast.1 hreturn), rfl⟩
    · next hbare => exact ⟨[], .bare hsplit fun hreturn => hbare (hlast.2 hreturn), rfl⟩
  · rw [if_neg (by simp [hfeed])]
    exact ⟨[], .alone hfeed, rfl⟩

theorem exists_place (style : ImportStyle) (statement t : Text) :
    ∃ index mark, IsImportPlace style t index ∧ IsModelEnd t mark ∧
      addImport style statement t =
        t.take index ++ (statement ++ mark ++ ['\n']) ++ t.drop index := by
  have happart := ImportStyle.liesApart_pattern style t
  unfold addImport
  split
  · next hnone =>
    obtain ⟨mark, hends, hend⟩ := exists_isModelEnd_firstLineEnd t
    refine ⟨0, mark, .atStart fun other hother => ?_, hends, by simp [hend]⟩
    have hmem := mem_stretches happart hother
    rw [List.getLast?_eq_none_iff.1 hnone] at hmem
    cases hmem
  · next last hlast =>
    have hmatches := matchesAt_of_mem_stretches (List.mem_of_getLast? hlast)
    have hwhole := ImportStyle.isWholeLine_of_matchesAt hmatches
    refine ⟨last.stop, _, .behindLast hmatches hwhole fun other hother =>
      stop_le_of_getLast?_stretches happart hlast hother,
      isModelEnd_of_isWholeLine hwhole hmatches.1, ?_⟩
    simp only
    split <;> simp

theorem exists_importsPlaced (style : ImportStyle) (t : Text) (required : List RequiredImport) :
    ∃ added, ImportsPlaced style required t (ensureImports style t required) added := by
  induction required generalizing t with
  | nil => exact ⟨[], .done t⟩
  | cons first others ih =>
      obtain ⟨added, hothers⟩ := ih (ensureImport style t first)
      rw [ensureImports, List.foldl_cons]
      rw [ensureImport] at hothers ⊢
      split at hothers
      · next here =>
        rw [if_pos here]
        exact ⟨added, .present here hothers⟩
      · next absent =>
        rw [if_neg absent]
        obtain ⟨index, mark, hplace, hends, hadd⟩ := exists_place style first.statement t
        rw [hadd] at hothers ⊢
        exact ⟨_, .missing (Bool.eq_false_iff.2 absent) hplace hends hothers⟩

/-- Where all the imports are present, none is added. -/
theorem ensureImports_of_isPresent {required : List RequiredImport}
    (h : ∀ first ∈ required, first.isPresent t = true) : ensureImports style t required = t := by
  induction required with
  | nil => rfl
  | cons first others ih =>
      obtain ⟨hfirst, hothers⟩ := List.forall_mem_cons.1 h
      rw [ensureImports, List.foldl_cons, ensureImport, if_pos hfirst]
      exact ih hothers

end Adding

/-! ## What adding imports comes to -/

/-- Every spelling of the import fits on one line. -/
def RequiredImport.FitsLine (required : RequiredImport) : Prop :=
  ∀ s ∈ required.spellings, '\n' ∉ s ∧ '\r' ∉ s

instance (required : RequiredImport) : Decidable required.FitsLine :=
  inferInstanceAs (Decidable (∀ s ∈ required.spellings, _))

namespace IsModelEnd

variable {t mark s : Text}

theorem cases (h : IsModelEnd t mark) : mark = [] ∨ mark = ['\r'] := by
  cases h with
  | alone => exact .inl rfl
  | bare => exact .inl rfl
  | returned => exact .inr rfl

theorem notMem_line (h : IsModelEnd t mark) (hs : '\n' ∉ s) : '\n' ∉ s ++ mark := by
  rcases h.cases with rfl | rfl <;> simp [hs]

theorem fillsLine (h : IsModelEnd t mark) (s : Text) : FillsLine s (s ++ mark) :=
  ⟨[], [], mark, List.forall_mem_nil _, List.forall_mem_nil _, h.cases, by simp⟩

/-- A new line ends as the line feed that is its model. -/
theorem exists_model (h : IsModelEnd t mark) (hfeed : '\n' ∈ t) (hs : '\n' ∉ s ∧ '\r' ∉ s) :
    ∃ before behind, t = before ++ '\n' :: behind ∧
      ((s ++ mark).getLast? = some '\r' ↔ before.getLast? = some '\r') := by
  have hbare : ¬ s.getLast? = some '\r' := fun hlast => hs.2 (List.mem_of_getLast? hlast)
  cases h with
  | alone none => exact absurd hfeed none
  | bare split h => exact ⟨_, _, split, iff_of_false (by rwa [List.append_nil]) h⟩
  | returned split h => exact ⟨_, _, split, iff_of_true List.getLast?_concat h⟩

end IsModelEnd

namespace ImportsPlaced

variable {style : ImportStyle} {imports : List RequiredImport} {t out : Text} {added : List Text}

/-- The added lines are whole lines at starts of lines. -/
theorem importsAdded (h : ImportsPlaced style imports t out added) :
    ImportsAdded imports t out := by
  induction h with
  | done => exact .done _
  | present here _ ih => exact .present here ih
  | @missing required others t out mark index _ absent place ends _ ih =>
      rw [← List.take_append_drop index t] at absent
      have hadded : ImportsAdded (required :: others) (t.take index ++ t.drop index) out := by
        refine @ImportsAdded.missing _ _ _ _ (mark ++ ['\n']) _ absent place.endsLine ?_ ?_
        · rcases ends.cases with rfl | rfl
          · exact .inl rfl
          · exact .inr rfl
        · rwa [← List.append_assoc required.statement]
      rwa [List.take_append_drop] at hadded

theorem lines_insert {a line c : Text} (ha : EndsLine a) (hline : '\n' ∉ line) :
    splitOn '\n' (a ++ (line ++ ['\n']) ++ c) =
      (splitOn '\n' a).dropLast ++ line :: splitOn '\n' c := by
  rw [List.append_assoc, lines_append_of_endsLine ha, List.append_assoc, List.singleton_append,
    splitOn_append_cons hline]

section Clean

variable (hclean : ∀ required ∈ imports, required.FitsLine)
  (h : ImportsPlaced style imports t out added)

include hclean h

/-- The lines in the end are the lines of the text, in their order, and the added ones. -/
theorem lines : (splitOn '\n' t).Sublist (splitOn '\n' out) ∧
    (splitOn '\n' out).Perm (added ++ splitOn '\n' t) := by
  induction h with
  | done => exact ⟨.refl _, .refl _⟩
  | present _ _ ih => exact ih (List.forall_mem_cons.1 hclean).2
  | @missing required _ t _ mark index added _ place ends _ ih =>
      obtain ⟨hfirst, hothers⟩ := List.forall_mem_cons.1 hclean
      obtain ⟨hsublist, hperm⟩ := ih hothers
      have hline := ends.notMem_line (hfirst _ List.mem_cons_self).1
      have hold := lines_append_of_endsLine place.endsLine (t.drop index)
      rw [List.take_append_drop] at hold
      rw [lines_insert place.endsLine hline] at hsublist hperm
      rw [hold]
      exact ⟨((List.sublist_cons_self _ _).append_left _).trans hsublist,
        hperm.trans ((List.perm_middle.append_left added).trans List.perm_middle)⟩

/-- No line is added that was there, or added twice. -/
theorem fresh : added.Nodup ∧ ∀ line ∈ added, line ∉ splitOn '\n' t := by
  induction h with
  | done => exact ⟨.nil, List.forall_mem_nil _⟩
  | present _ _ ih => exact ih (List.forall_mem_cons.1 hclean).2
  | @missing required _ t _ mark index added absent place ends _ ih =>
      obtain ⟨hfirst, hothers⟩ := List.forall_mem_cons.1 hclean
      obtain ⟨hnodup, hfresh⟩ := ih hothers
      have hs := hfirst _ List.mem_cons_self
      have hline := ends.notMem_line hs.1
      have hold := lines_append_of_endsLine place.endsLine (t.drop index)
      rw [List.take_append_drop] at hold
      rw [lines_insert place.endsLine hline] at hfresh
      refine ⟨List.nodup_cons.2 ⟨fun hmem => hfresh _ hmem (by simp), hnodup⟩,
        List.forall_mem_cons.2 ⟨fun hmem => ?_, fun line hmem hthere => hfresh line hmem ?_⟩⟩
      · have halone := (standsAlone_iff hs.1 t).2 ⟨_, hmem, ends.fillsLine _⟩
        rw [RequiredImport.isPresent_iff.2 ⟨_, List.mem_cons_self, halone⟩] at absent
        cases absent
      · rw [hold] at hthere
        rcases List.mem_append.1 hthere with hfront | hbehind
        · exact List.mem_append_left _ hfront
        · exact List.mem_append_right _ (List.mem_cons_of_mem _ hbehind)

/-- A convention about carriage returns before line feeds is kept. -/
theorem everyFeed {good : Option Char → Prop}
    (hgood : ∀ c d, (c = some '\r' ↔ d = some '\r') → good c → good d) (hfeed : '\n' ∈ t)
    (ht : EveryFeed good t) : EveryFeed good out := by
  induction h with
  | done => exact ht
  | present _ _ ih => exact ih (List.forall_mem_cons.1 hclean).2 hfeed ht
  | @missing required _ t _ mark index added absent place ends _ ih =>
      obtain ⟨hfirst, hothers⟩ := List.forall_mem_cons.1 hclean
      have hs := hfirst _ List.mem_cons_self
      have hline := ends.notMem_line hs.1
      have hfront := place.endsLine
      have hnone : good none ↔ good (some '\n') :=
        ⟨hgood _ _ (by decide), hgood _ _ (by decide)⟩
      have hthere := ht
      rw [← List.take_append_drop index t, everyFeed_append_of_endsLine hnone hfront] at ht
      obtain ⟨before, behind, hsplit, hlast⟩ := ends.exists_model hfeed hs
      have hnew : EveryFeed good (required.statement ++ mark ++ ['\n']) :=
        (everyFeed_line hline).2 (hgood _ _ hlast.symm (hthere before behind hsplit))
      refine ih hothers (by simp) ?_
      rw [List.append_assoc, everyFeed_append_of_endsLine hnone hfront,
        everyFeed_append_of_endsLine hnone (.inr List.getLast?_concat)]
      exact ⟨ht.1, hnew, ht.2⟩

end Clean

end ImportsPlaced

/-! ## Imports, each added once -/

/-- Every import is present in the end, and the imports that are missing in their turn have become
one new line each, directly behind the last import line of the text or at its start where there is
none. No added line was there before or is there twice, the other lines are as they were, another
round adds nothing, and a text that has line feeds keeps its convention about carriage returns. -/
theorem imports_added_once (style : ImportStyle) (imports : List RequiredImport) (t : Text)
    (hclean : ∀ required ∈ imports, required.FitsLine) :
    ∃ added out, ensureImports style t imports = out ∧
      ImportsPlaced style imports t out added ∧
      (∀ required ∈ imports, required.isPresent out = true) ∧
      ensureImports style out imports = out ∧
      (splitOn '\n' t).Sublist (splitOn '\n' out) ∧
      (splitOn '\n' out).Perm (added ++ splitOn '\n' t) ∧
      (∀ line ∈ added, line ∉ splitOn '\n' t ∧ (splitOn '\n' out).count line = 1) ∧
      ('\n' ∈ t → (AllReturned t → AllReturned out) ∧ (NoneReturned t → NoneReturned out)) := by
  obtain ⟨added, hplaced⟩ := exists_importsPlaced style t imports
  obtain ⟨hsublist, hperm⟩ := hplaced.lines hclean
  obtain ⟨hnodup, hfresh⟩ := hplaced.fresh hclean
  have hpresent := hplaced.importsAdded.isPresent fun required hmem s hs =>
    (hclean required hmem s hs).1
  refine ⟨added, _, rfl, hplaced, hpresent, ensureImports_of_isPresent hpresent, hsublist, hperm,
    fun line hline => ⟨hfresh line hline, ?_⟩, fun hfeed => ⟨?_, ?_⟩⟩
  · rw [hperm.count_eq, List.count_append, List.count_eq_one_of_mem hnodup hline,
      List.count_eq_zero_of_not_mem (hfresh line hline)]
  · exact hplaced.everyFeed hclean (fun c d hcd => hcd.1) hfeed
  · exact hplaced.everyFeed hclean (fun c d hcd hc hd => hc (hcd.2 hd)) hfeed

/-- A file with an import in another spelling, and with carriage returns. -/
def aliasedHeader : Text := "#import \"StallionModule.h\"\r\n@end".toList

def aliasedResult : Text :=
  "#import \"StallionModule.h\"\r\n#import <React/RCTBundleURLProvider.h>\r\n@end".toList

/-- Of two imports one is present, and the other one is added behind it. -/
theorem imports_added_once_aliasedHeader :
    (∀ required ∈ importsInObjectiveC, required.FitsLine) ∧ AllReturned aliasedHeader ∧
      ensureImports .directive aliasedHeader importsInObjectiveC = aliasedResult ∧
      AllReturned aliasedResult := by
  have hclean : ∀ required ∈ importsInObjectiveC, required.FitsLine := by decide
  have hreturned : AllReturned aliasedHeader := by decide
  have hadded : ensureImports .directive aliasedHeader importsInObjectiveC = aliasedResult := by
    decide
  obtain ⟨-, out, hout, -, -, -, -, -, -, hends⟩ :=
    imports_added_once .directive importsInObjectiveC aliasedHeader hclean
  obtain rfl := hout.symm.trans hadded
  exact ⟨hclean, hreturned, hadded, (hends (by decide)).1 hreturned⟩

end BundleHook.Entry
