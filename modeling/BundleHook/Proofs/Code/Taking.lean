import BundleHook.Proofs.Code.Passage
import BundleHook.Text.Word

/-!
# What a pattern takes

Most patterns look at nothing but the text they take: whether such a pattern matches a part of a text
is a question about that part alone, and the part can be moved into another text.

* `IsFree` — the pattern looks at nothing around what it takes;
* `matchesAt_iff_takes` — a free pattern matches a part of a text exactly when it takes it;
* `matchesAt_both_iff`, `matchesAt_short_iff`, `matchesAt_edge_iff` — the parts of a pattern that is
  not free;
* `occursIn_iff_matchesAt` — a pattern occurs where it matches.
-/

namespace BundleHook.Code.Pattern

open Text

/-! ## Free patterns -/

/-- The pattern looks at nothing around the text it takes. -/
def IsFree : Pattern → Prop
  | nothing | one _ | many _ => True
  | edge | lineStart | lineEnd | short _ => False
  | both first second | either first second => first.IsFree ∧ second.IsFree
  | turns body => body.IsFree

namespace IsFree

variable {pattern first second : Pattern}

theorem append_iff : (first ++ second).IsFree ↔ first.IsFree ∧ second.IsFree := Iff.rfl

theorem maybe_iff : (maybe pattern).IsFree ↔ pattern.IsFree := and_iff_left trivial

theorem text (w : Text) : (Pattern.text w).IsFree := by
  induction w with
  | nil => trivial
  | cons c w ih => exact ⟨trivial, ih⟩

theorem word (w : String) : (Pattern.word w).IsFree := text w.toList

theorem blanks : Pattern.blanks.IsFree := trivial

theorem gap : Pattern.gap.IsFree := ⟨trivial, trivial⟩

theorem indentGap : Pattern.indentGap.IsFree := ⟨trivial, trivial⟩

end IsFree

/-- What a free pattern matches at one place it takes at every place. -/
theorem Matches.exists_takes {pattern : Pattern} (hfree : pattern.IsFree) {before here : Text}
    {q : Place} (h : Matches pattern (placeBetween before here) q) :
    ∃ taken rest, here = taken ++ rest ∧ q = placeBetween (before ++ taken) rest ∧
      Takes pattern taken := by
  generalize hp : placeBetween before here = p at h
  induction h generalizing before here with
  | edge | lineStart | lineEnd | shortStop | shortMore => exact hfree.elim
  | nothing => exact ⟨[], here, rfl, by simp [← hp], .nothing⟩
  | manyStop => exact ⟨[], here, rfl, by simp [← hp], .many (List.forall_mem_nil _)⟩
  | turnsStop =>
      refine ⟨[], here, rfl, by simp [← hp], fun before behind => ?_⟩
      simpa using Matches.turnsStop _ (placeBetween before behind)
  | @one _ _ c rest head accepted =>
      subst hp
      obtain rfl : here = c :: rest := head
      exact ⟨[c], rest, rfl, by simp [placeBetween, Place.step], .one accepted⟩
  | @manyMore _ _ _ c rest head accepted _ ih =>
      subst hp
      obtain rfl : here = c :: rest := head
      obtain ⟨taken, rest', rfl, rfl, htakes⟩ := @ih trivial (before ++ [c]) rest (by
        simp [placeBetween, Place.step])
      refine ⟨c :: taken, rest', rfl, by simp, fun before behind => .manyMore rfl accepted ?_⟩
      simpa [placeBetween, Place.step] using htakes (before ++ [c]) behind
  | both _ _ left right =>
      obtain ⟨taken, rest, rfl, hq, htaken⟩ := left hfree.1 hp
      obtain ⟨taken', rest', rfl, hr, htaken'⟩ := right hfree.2 hq.symm
      exact ⟨taken ++ taken', rest', by simp, by simp [hr], htaken.both htaken'⟩
  | first _ ih =>
      obtain ⟨taken, rest, hsplit, hq, htaken⟩ := ih hfree.1 hp
      exact ⟨taken, rest, hsplit, hq, htaken.first⟩
  | second _ ih =>
      obtain ⟨taken, rest, hsplit, hq, htaken⟩ := ih hfree.2 hp
      exact ⟨taken, rest, hsplit, hq, htaken.second⟩
  | @turnsMore body _ _ _ _ progress _ turn tail =>
      obtain ⟨taken, rest, rfl, rfl, htaken⟩ := turn hfree hp
      obtain ⟨taken', rest', rfl, rfl, htaken'⟩ := tail hfree rfl
      subst hp
      refine ⟨taken ++ taken', rest', by simp, by simp, fun front behind => ?_⟩
      have hturn := htaken front (taken' ++ behind)
      have htail := htaken' (front ++ taken) behind
      rw [List.append_assoc, ← List.append_assoc front]
      refine .turnsMore hturn ?_ htail
      simp only [placeBetween, List.length_append] at progress ⊢
      omega

theorem matchesAt_iff_takes {pattern : Pattern} (hfree : pattern.IsFree) {t : Text} {span : Span} :
    pattern.MatchesAt t span ↔
      span.start ≤ span.stop ∧ span.stop ≤ t.length ∧
        Takes pattern (slice t span.start span.stop) := by
  refine and_congr_right fun hle => and_congr_right fun hlength => ?_
  constructor
  · intro h
    obtain ⟨taken, rest, hsplit, hplace, htaken⟩ := h.exists_takes hfree
    have hrest : t.drop span.stop = rest := congrArg Place.rest hplace
    rw [← slice_append_drop hle, hrest] at hsplit
    rwa [List.append_cancel_right hsplit]
  · intro h
    have hmatches := h (t.take span.start) (t.drop span.stop)
    rwa [slice_append_drop hle, take_append_slice hle] at hmatches

/-- A free pattern matches wherever the same text stands. -/
theorem MatchesAt.of_slice_eq {pattern : Pattern} (hfree : pattern.IsFree) {t other : Text}
    {span : Span} (h : pattern.MatchesAt t span) (hlength : other.length = t.length)
    (hslice : slice other span.start span.stop = slice t span.start span.stop) :
    pattern.MatchesAt other span := by
  rw [matchesAt_iff_takes hfree] at h ⊢
  rwa [hlength, hslice]

/-! ## Parts of a pattern -/

section Parts

variable {t : Text} {span : Span}

theorem matchesAt_both_iff {first second : Pattern} :
    (first ++ second).MatchesAt t span ↔
      ∃ middle, first.MatchesAt t ⟨span.start, middle⟩ ∧ second.MatchesAt t ⟨middle, span.stop⟩ := by
  refine ⟨matchesAt_both, ?_⟩
  rintro ⟨middle, ⟨hfirst, -, left⟩, ⟨hsecond, hlength, right⟩⟩
  exact ⟨Nat.le_trans hfirst hsecond, hlength, .both left right⟩

theorem matchesAt_append_assoc {first second third : Pattern} :
    (first ++ second ++ third).MatchesAt t span ↔
      (first ++ (second ++ third)).MatchesAt t span := by
  refine and_congr_right fun _ => and_congr_right fun _ => ?_
  simp only [matches_both_iff]
  constructor
  · rintro ⟨q, ⟨p, hfirst, hsecond⟩, hthird⟩
    exact ⟨p, hfirst, q, hsecond, hthird⟩
  · rintro ⟨p, hfirst, q, hsecond, hthird⟩
    exact ⟨q, ⟨p, hfirst, hsecond⟩, hthird⟩

theorem slice_of_matchesAt_text {w : Text} (h : (text w).MatchesAt t span) :
    slice t span.start span.stop = w := by
  obtain ⟨hle, -, hmatches⟩ := h
  obtain ⟨rest, hsplit, hplace⟩ := matches_text_iff.1 hmatches
  have hrest : t.drop span.stop = rest := congrArg Place.rest hplace
  rw [← slice_append_drop hle, hrest] at hsplit
  exact List.append_cancel_right hsplit

theorem matches_short_iff {stop before here : Text} {q : Place} :
    Matches (short stop) (placeBetween before here) q ↔
      ∃ taken rest, here = taken ++ rest ∧ q = placeBetween (before ++ taken) rest ∧
        ∀ n < taken.length, ¬stop <+: here.drop n := by
  constructor
  · intro h
    generalize hpattern : short stop = pattern at h
    generalize hp : placeBetween before here = p at h
    induction h generalizing before here with
    | shortStop => exact ⟨[], here, rfl, by simp [← hp], fun n hn => absurd hn (Nat.not_lt_zero n)⟩
    | @shortMore _ _ _ c rest head outside _ ih =>
        obtain rfl := Pattern.short.inj hpattern
        subst hp
        obtain rfl : here = c :: rest := head
        obtain ⟨taken, rest', rfl, rfl, htaken⟩ := @ih (before ++ [c]) rest rfl (by
          simp [placeBetween, Place.step])
        refine ⟨c :: taken, rest', rfl, by simp, fun n hn hpresent => ?_⟩
        rcases n with _ | n
        · exact Bool.false_ne_true (outside.symm.trans (List.isPrefixOf_iff_prefix.2 hpresent))
        · exact htaken n (Nat.lt_of_succ_lt_succ hn) hpresent
    | _ => cases hpattern
  · rintro ⟨taken, rest, rfl, rfl, houtside⟩
    induction taken generalizing before with
    | nil => simpa using Matches.shortStop stop (placeBetween before rest)
    | cons c taken ih =>
        refine .shortMore rfl ?_ ?_
        · exact Bool.eq_false_iff.2 fun hpresent =>
            houtside 0 (Nat.succ_pos _) (List.isPrefixOf_iff_prefix.1 hpresent)
        · have hmore := @ih (before ++ [c]) fun n hn => houtside (n + 1) (Nat.succ_lt_succ hn)
          simpa [placeBetween, Place.step] using hmore

/-- A word stands where it is matched, character for character. -/
theorem getElem?_of_matchesAt_text {w : Text} (h : (text w).MatchesAt t span) :
    span.stop = span.start + w.length ∧
      ∀ n < w.length, t[span.start + n]? = w[n]? := by
  have hslice := slice_of_matchesAt_text h
  have hlength := congrArg List.length hslice
  rw [slice, List.length_drop, List.length_take_of_le h.2.1] at hlength
  have hle := h.1
  refine ⟨by omega, fun n hn => ?_⟩
  rw [← hslice, slice, List.getElem?_drop, List.getElem?_take_of_lt (by omega)]

/-- A gap passes no place where its mark begins. -/
theorem matchesAt_short_iff {stop : Text} :
    (short stop).MatchesAt t span ↔
      span.start ≤ span.stop ∧ span.stop ≤ t.length ∧
        ∀ k, span.start ≤ k → k < span.stop → ¬stop <+: t.drop k := by
  refine and_congr_right fun hle => and_congr_right fun hlength => ?_
  have hslice : (slice t span.start span.stop).length = span.stop - span.start := by
    rw [slice, List.length_drop, List.length_take_of_le hlength]
  have hall : (∀ n < (slice t span.start span.stop).length,
        ¬stop <+: (t.drop span.start).drop n) ↔
      ∀ k, span.start ≤ k → k < span.stop → ¬stop <+: t.drop k := by
    simp only [hslice, List.drop_drop]
    constructor
    · intro h k hstart hstop
      have hk := h (k - span.start) (by omega)
      rwa [Nat.add_sub_cancel' hstart] at hk
    · exact fun h n hn => h _ (by omega) (by omega)
  rw [matches_short_iff, ← hall]
  constructor
  · rintro ⟨taken, rest, hsplit, hplace, htaken⟩
    have hrest : t.drop span.stop = rest := congrArg Place.rest hplace
    have hsame := hsplit
    rw [← slice_append_drop hle, hrest] at hsame
    rwa [List.append_cancel_right hsame]
  · intro h
    exact ⟨slice t span.start span.stop, t.drop span.stop, (slice_append_drop hle).symm,
      by rw [take_append_slice hle], h⟩

/-- An edge takes nothing. -/
theorem matchesAt_edge_iff :
    edge.MatchesAt t span ↔
      span.stop = span.start ∧ span.start ≤ t.length ∧
        (placeBetween (t.take span.start) (t.drop span.start)).isEdge = true := by
  constructor
  · rintro ⟨hle, hlength, hmatches⟩
    have hstart := Nat.le_trans hle hlength
    obtain ⟨hplace, hedge⟩ : placeBetween (t.take span.stop) (t.drop span.stop) =
        placeBetween (t.take span.start) (t.drop span.start) ∧
          (placeBetween (t.take span.start) (t.drop span.start)).isEdge = true := by
      generalize placeBetween (t.take span.stop) (t.drop span.stop) = q at hmatches
      cases hmatches with
      | edge hedge => exact ⟨rfl, hedge⟩
    have hindex : (t.take span.stop).length = (t.take span.start).length :=
      congrArg Place.index hplace
    rw [List.length_take_of_le hlength, List.length_take_of_le hstart] at hindex
    exact ⟨hindex, hstart, hedge⟩
  · rintro ⟨hstop, hlength, hedge⟩
    rw [MatchesAt, hstop]
    exact ⟨Nat.le_refl _, hlength, .edge hedge⟩

/-- No blank is a word character. -/
theorem isWord_eq_false_of_isBlank {c : Char} (h : isBlank c = true) : isWord c = false := by
  have hall : ∀ interval ∈ blankIntervals,
      ∀ n ∈ List.range' interval.1 (interval.2 + 1 - interval.1), isWord (Char.ofNat n) = false := by
    decide +kernel
  obtain ⟨interval, hmem, hin⟩ := List.any_eq_true.1 h
  simp only [Bool.and_eq_true, decide_eq_true_eq] at hin
  rw [← Char.ofNat_toNat c]
  exact hall interval hmem _ (List.mem_range'_1.2 (by omega))

/-- Behind a word character an edge is where no other one follows. -/
theorem isEdge_behind_iff {i : Nat} {c : Char} (hc : t[i]? = some c) (hword : isWord c = true) :
    (placeBetween (t.take (i + 1)) (t.drop (i + 1))).isEdge = true ↔
      t[i + 1]?.any isWord = false := by
  have hlast : (t.take (i + 1)).getLast? = some c := by
    rw [List.take_add_one, hc, Option.toList_some, List.getLast?_concat]
  rw [Place.isEdge, placeBetween, hlast, List.head?_drop, Option.any_some, hword]
  simp

end Parts

theorem occursIn_iff_matchesAt {pattern : Pattern} {t : Text} :
    pattern.occursIn t = true ↔ ∃ span, pattern.MatchesAt t span := by
  constructor
  · intro h
    obtain ⟨span, hspan⟩ := Option.isSome_iff_exists.1 h
    exact ⟨span, matchesAt_of_search hspan⟩
  · rintro ⟨span, -, -, hmatches⟩
    exact (occursIn_iff pattern t).2 ⟨_, _, (List.take_append_drop span.start t).symm, _, hmatches⟩

end BundleHook.Code.Pattern
