import BundleHook.Proofs.Code.Nesting

/-!
# Pairs around a part of a text

A pair around the start of a part closes behind the part when the part closes nothing that it does
not open. When the part is replaced by a balanced one, the pairs around it keep their closers
exactly when the old part was balanced, too.

* `Encloses` — a pair around a place;
* `enclosing_behind_iff` — pairs that close behind a part;
* `enclosing_kept_iff` — pairs around a part that is replaced;
* `matchingCloser_take_append` — pairs before a part that is replaced.
-/

namespace BundleHook.Code

open Text

/-! ## Pairs -/

section Pairs

variable {t : Text} {opener closer : Char} (hkind : closerOf opener = some closer)

include hkind

/-- What stands in a pair is balanced with its delimiters. -/
theorem balanced_of_matchingCloser {i j : Nat} (hopener : t[i]? = some opener)
    (h : matchingCloser t i = some j) : Balanced opener closer (codeBetween t i (j + 1)) := by
  have hne := ne_of_closerOf hkind
  have hscan := scan_eq_opener hopener hkind
  rw [matchingCloser_eq hopener hkind] at h
  obtain ⟨before, after, hsplit, hopen⟩ := exists_of_closeAmong (Nat.le_refl 1) h
  have hsorted := sorted_scan t i
  rw [hscan, hsplit, ← List.cons_append] at hsorted
  have hfilter := filter_le_of_sorted hsorted
  have hcode : codeBetween t i (j + 1) = opener :: before.map Prod.snd ++ [closer] := by
    simp only [codeBetween, Nat.lt_succ_iff]
    rw [hscan, hsplit, ← List.cons_append, hfilter, List.map_append]
    rfl
  rw [balanced_iff hne, hcode, List.cons_append, openAfter, if_pos rfl, openAfter_append,
    openAfter_add (Nat.le_refl 1) hopen 1, Option.bind_some, openAfter, if_neg hne.symm, if_pos rfl]
  rfl

/-- A pair that encloses a place of code. The place may be that of the closer itself. -/
structure Encloses (t : Text) (opener : Char) (s o c : Nat) : Prop where
  isOpener : t[o]? = some opener
  before : o < s
  comes : ∃ d, (s, d) ∈ scan t o
  closes : matchingCloser t o = some c
  behind : s ≤ c

namespace Encloses

variable {s o c : Nat}

theorem reaches (h : Encloses t opener s o c) : Reaches t (o + 1) s := by
  obtain ⟨d, hcomes⟩ := h.comes
  rw [scan_eq_opener h.isOpener hkind] at hcomes
  rcases List.mem_cons.1 hcomes with heq | hcomes
  · exact absurd (congrArg Prod.fst heq) (Nat.ne_of_gt h.before)
  · exact .of_mem hcomes

/-- At the place some openers are left to balance, and the closer is found from there on. -/
theorem exists_depth (h : Encloses t opener s o c) :
    ∃ depth ≥ 1, openAfter opener closer 1 (codeBetween t (o + 1) s) = some depth ∧
      closeAmong opener closer depth (scan t s) = some c := by
  obtain ⟨hscan, hplaces⟩ := (h.reaches hkind).filter_eq
  have hclose := h.closes
  rw [matchingCloser_eq h.isOpener hkind, hscan] at hclose
  cases hdepth : openAfter opener closer 1 (codeBetween t (o + 1) s) with
  | none =>
      -- The closer would stand before the place.
      obtain ⟨j, hj, hfound⟩ := exists_closeAmong hdepth
      rw [hfound] at hclose
      obtain rfl := Option.some.inj hclose
      obtain ⟨place, hplace, rfl⟩ := List.mem_map.1 hj
      exact absurd (hplaces place hplace) (Nat.not_lt.2 h.behind)
  | some depth =>
      rw [closeAmong_append hdepth] at hclose
      exact ⟨depth, one_le_of_openAfter (Nat.le_refl 1) hdepth, rfl, hclose⟩

/-- Among the pairs around a place there is one with nothing open between its opener and the place. -/
theorem exists_innermost (h : Encloses t opener s o c) :
    ∃ o c, Encloses t opener s o c ∧
      openAfter opener closer 1 (codeBetween t (o + 1) s) = some 1 := by
  obtain ⟨depth, hdepth, hopen, -⟩ := h.exists_depth hkind
  rcases Nat.eq_or_lt_of_le hdepth with rfl | hdeep
  · exact ⟨o, c, h, hopen⟩
  obtain ⟨hscan, hplaces⟩ := (h.reaches hkind).filter_eq
  obtain ⟨before, k, after, hsplit, hinner⟩ :=
    exists_opener_of_openAfter (Nat.le_refl 1) hopen hdeep
  rw [hsplit, List.append_assoc, List.cons_append] at hscan
  have hk : (k, opener) ∈ scan t (o + 1) := by simp [hscan]
  have hks : k < s := hplaces (k, opener) (by simp [hsplit])
  have hbehind : scan t (k + 1) = after ++ scan t s := scan_succ_of_split hscan
  have hkopener := getElem?_of_mem_scan hk
  obtain ⟨d, hcomes⟩ := h.comes
  have hfirst := scan_eq_cons_of_mem hcomes
  have hmem : (s, d) ∈ scan t (k + 1) := by simp [hbehind, hfirst]
  -- The inner opener is closed in the outer pair, and behind the place.
  obtain ⟨m, hm, -, -⟩ := matchingCloser_inside h.isOpener hkind h.closes
    (scan_eq_opener h.isOpener hkind ▸ List.mem_cons_of_mem _ hk) (le_of_mem_scan hk)
    (Nat.lt_of_lt_of_le hks h.behind)
  have hcode : codeBetween t (k + 1) s = after.map Prod.snd := by
    have hafter : ∀ place ∈ after, place.1 < s := fun place hplace =>
      hplaces place (by simp [hsplit, hplace])
    rw [codeBetween, hbehind, List.filter_append, List.filter_eq_self.2 (by simpa using hafter),
      List.filter_eq_nil_iff.2, List.append_nil]
    intro place hplace
    simpa using le_of_mem_scan hplace
  have hclose := hm
  rw [matchingCloser_eq hkopener hkind, hbehind, closeAmong_append hinner] at hclose
  obtain ⟨place, hplace, rfl⟩ := List.mem_map.1 (mem_of_closeAmong hclose)
  refine ⟨k, place.1, ⟨hkopener, hks, ⟨d, ?_⟩, hm, le_of_mem_scan hplace⟩, hcode ▸ hinner⟩
  rw [scan_eq_opener hkopener hkind]
  exact List.mem_cons_of_mem _ hmem

end Encloses

/-! ## Pairs around a part that is replaced -/

section Part

variable {s e : Nat} (hpart : Reaches t s e)

include hpart

omit hkind in
/-- A pair around the start of a part closes behind the part when the part leaves something of what
is open before it. -/
theorem le_iff_exists_openAfter {c depth : Nat}
    (hclose : closeAmong opener closer depth (scan t s) = some c) :
    e ≤ c ↔ ∃ left, openAfter opener closer depth (codeBetween t s e) = some left := by
  obtain ⟨hscan, hplaces⟩ := hpart.filter_eq
  rw [hscan] at hclose
  cases hleft : openAfter opener closer depth (codeBetween t s e) with
  | none =>
      obtain ⟨j, hj, hfound⟩ := exists_closeAmong hleft
      obtain rfl := Option.some.inj ((hfound _).symm.trans hclose)
      obtain ⟨place, hplace, rfl⟩ := List.mem_map.1 hj
      exact iff_of_false (Nat.not_le.2 (hplaces place hplace)) (by simp)
  | some left =>
      rw [closeAmong_append hleft] at hclose
      obtain ⟨place, hplace, rfl⟩ := List.mem_map.1 (mem_of_closeAmong hclose)
      exact iff_of_true (le_of_mem_scan hplace) ⟨left, rfl⟩

/-- All pairs around the start of a part close behind the part exactly when the part keeps them
open. -/
theorem enclosing_behind_iff :
    (∀ o c, Encloses t opener s o c → e ≤ c) ↔
      ((∃ o c, Encloses t opener s o c) → KeepsOpen opener closer (codeBetween t s e)) := by
  rw [keepsOpen_iff (ne_of_closerOf hkind)]
  constructor
  · rintro hall ⟨o, c, h⟩
    obtain ⟨o, c, h, hopen⟩ := h.exists_innermost hkind
    obtain ⟨depth, -, hopen', hclose⟩ := h.exists_depth hkind
    obtain rfl := Option.some.inj (hopen.symm.trans hopen')
    exact (le_iff_exists_openAfter hpart hclose).1 (hall o c h)
  · intro hkeeps o c h
    obtain ⟨depth, hdepth, -, hclose⟩ := h.exists_depth hkind
    obtain ⟨left, hleft⟩ := hkeeps ⟨o, c, h⟩
    obtain ⟨more, rfl⟩ := Nat.exists_eq_add_of_le hdepth
    exact (le_iff_exists_openAfter hpart hclose).2
      ⟨left + more, openAfter_add (Nat.le_refl 1) hleft more⟩

variable {m code : Text} (hm : Passes m code) (hcode : Balanced opener closer code)
  (hinert : Inert (m ++ t.drop e)) {d : Char} (hd : t[s]? = some d) (hfeed : d ≠ '\n')

include hm hcode hinert hd hfeed

omit hpart in
/-- Behind a balanced part a pair closes as what is open before the part closes behind it. -/
theorem Encloses.matchingCloser_replaced {o c depth : Nat} (h : Encloses t opener s o c)
    (hdepth : 1 ≤ depth)
    (hopen : openAfter opener closer 1 (codeBetween t (o + 1) s) = some depth) :
    matchingCloser (t.take s ++ (m ++ t.drop e)) o =
      (closeAmong opener closer depth (scanFrom 0 0 (t.drop e))).map (s + m.length + ·) := by
  have hslength : s ≤ t.length := Nat.le_of_lt (List.getElem?_eq_some_iff.1 hd).1
  have hstake : (t.take s).length = s := List.length_take_of_le hslength
  have hbefore := h.before
  obtain ⟨d', hcomes⟩ := h.comes
  obtain rfl := Option.some.inj (hd.symm.trans (getElem?_of_mem_scan hcomes))
  rw [scan_eq_opener h.isOpener hkind] at hcomes
  have hcomes : (s, d) ∈ scan t (o + 1) := by
    rcases List.mem_cons.1 hcomes with heq | hcomes
    · exact absurd (congrArg Prod.fst heq) (Nat.ne_of_gt hbefore)
    · exact hcomes
  obtain ⟨places, hplaces, hscan, hscan'⟩ :=
    scan_take_append hcomes (fun heq => absurd heq hfeed) hinert
  have hmap : places.map Prod.snd = codeBetween t (o + 1) s := by
    have hfilter := (h.reaches hkind).filter_eq.1
    rw [codeBetween, List.append_cancel_right (hscan.symm.trans hfilter)]
  have hopener : (t.take s ++ (m ++ t.drop e))[o]? = some opener := by
    rw [List.getElem?_append_left (by omega), List.getElem?_take_of_lt hbefore, h.isOpener]
  obtain ⟨places', hcode', -, hpasses⟩ := hm s (t.drop e)
  have hbehind : scan (t.take s ++ (m ++ t.drop e)) s =
      places' ++ shift (s + m.length) (scanFrom 0 0 (t.drop e)) := by
    rw [scan, List.drop_left' hstake, hpasses, ← scanFrom_add, Nat.add_zero]
  have hkept : openAfter opener closer depth (places'.map Prod.snd) = some depth := by
    obtain ⟨more, rfl⟩ := Nat.exists_eq_add_of_le hdepth
    rw [hcode']
    exact openAfter_add (Nat.le_refl 1) ((balanced_iff (ne_of_closerOf hkind)).1 hcode) more
  rw [matchingCloser_eq hopener hkind, hscan', closeAmong_append (hmap ▸ hopen), hbehind,
    closeAmong_append hkept, closeAmong_shift]

/-- A pair keeps its closer exactly when the old part leaves open as much as is open before it. -/
theorem Encloses.kept_iff {o c depth : Nat} (h : Encloses t opener s o c) (hdepth : 1 ≤ depth)
    (hopen : openAfter opener closer 1 (codeBetween t (o + 1) s) = some depth)
    (hclose : closeAmong opener closer depth (scan t s) = some c) :
    (e ≤ c ∧ matchingCloser (t.take s ++ (m ++ t.drop e)) o = some (c - e + (s + m.length))) ↔
      openAfter opener closer depth (codeBetween t s e) = some depth := by
  rw [h.matchingCloser_replaced hkind hm hcode hinert hd hfeed hdepth hopen,
    le_iff_exists_openAfter hpart hclose]
  -- Where the closer stands behind the old part, for what the part leaves open.
  have hfound {left : Nat} (hleft : openAfter opener closer depth (codeBetween t s e) = some left) :
      ∃ x, closeAmong opener closer left (scanFrom 0 0 (t.drop e)) = some x ∧ e + x = c := by
    rw [hpart.filter_eq.1, closeAmong_append hleft, scan_eq_shift, closeAmong_shift] at hclose
    exact Option.map_eq_some_iff.1 hclose
  constructor
  · rintro ⟨⟨left, hleft⟩, hout⟩
    obtain ⟨x, hx, rfl⟩ := hfound hleft
    obtain ⟨y, hy, heq⟩ := Option.map_eq_some_iff.1 hout
    obtain rfl : y = x := by omega
    have hsame := closeAmong_inj (sorted_scanFrom 0 0 _) hdepth (one_le_of_openAfter hdepth hleft)
      hy hx
    rw [hleft, hsame]
  · intro hkept
    obtain ⟨x, hx, rfl⟩ := hfound hkept
    refine ⟨⟨depth, hkept⟩, ?_⟩
    rw [hx, Option.map_some]
    congr 1
    omega

/-- All pairs around the start of a part keep their closers exactly when the part is balanced. -/
theorem enclosing_kept_iff :
    (∀ o c, Encloses t opener s o c →
        e ≤ c ∧ matchingCloser (t.take s ++ (m ++ t.drop e)) o = some (c - e + (s + m.length))) ↔
      ((∃ o c, Encloses t opener s o c) → Balanced opener closer (codeBetween t s e)) := by
  rw [balanced_iff (ne_of_closerOf hkind)]
  constructor
  · rintro hall ⟨o, c, h⟩
    obtain ⟨o, c, h, hopen⟩ := h.exists_innermost hkind
    obtain ⟨depth, hdepth, hopen', hclose⟩ := h.exists_depth hkind
    obtain rfl := Option.some.inj (hopen.symm.trans hopen')
    exact (h.kept_iff hkind hpart hm hcode hinert hd hfeed hdepth hopen hclose).1 (hall o c h)
  · intro hkeeps o c h
    obtain ⟨depth, hdepth, hopen, hclose⟩ := h.exists_depth hkind
    refine (h.kept_iff hkind hpart hm hcode hinert hd hfeed hdepth hopen hclose).2 ?_
    obtain ⟨more, rfl⟩ := Nat.exists_eq_add_of_le hdepth
    exact openAfter_add (Nat.le_refl 1) (hkeeps ⟨o, c, h⟩) more

end Part

/-- A pair around a place keeps its closer when a balanced part is put in there. -/
theorem Encloses.matchingCloser_inserted {s o c : Nat} (h : Encloses t opener s o c)
    {m code : Text} (hm : Passes m code) (hcode : Balanced opener closer code)
    (hinert : Inert (m ++ t.drop s)) {d : Char} (hd : t[s]? = some d) (hfeed : d ≠ '\n') :
    matchingCloser (t.take s ++ (m ++ t.drop s)) o = some (c + m.length) := by
  obtain ⟨depth, hdepth, hopen, hclose⟩ := h.exists_depth hkind
  have hkept := h.kept_iff hkind (.refl t s) hm hcode hinert hd hfeed hdepth hopen hclose
  rw [codeBetween_self] at hkept
  obtain ⟨hle, hout⟩ := hkept.2 rfl
  rw [hout, ← Nat.add_assoc, Nat.sub_add_cancel hle]

end Pairs

theorem literalLength_of_isCloser {opener closer : Char} (h : closerOf opener = some closer)
    (rest : Text) : literalLength (closer :: rest) = 0 := by
  unfold closerOf at h
  split at h <;> cases h <;> rfl

/-- A pair that closes before the place where a text gets another end closes there still. -/
theorem matchingCloser_take_append {t other : Text} {k m p : Nat} {d : Char}
    (h : matchingCloser t k = some m) (hlt : m < p) (hd : t[p]? = some d)
    (hfeed : d = '\n' → other.head? = some '\n') (hother : Inert other) :
    matchingCloser (t.take p ++ other) k = some m := by
  obtain ⟨opener, closer, hopener, hkind, hle, hcloser⟩ := matchingCloser_eq_some h
  have hkept {i : Nat} (hi : i < p) : (t.take p ++ other)[i]? = t[i]? := by
    obtain ⟨hp, -⟩ := List.getElem?_eq_some_iff.1 hd
    rw [List.getElem?_append_left (by rw [List.length_take]; omega), List.getElem?_take_of_lt hi]
  have hopener' : (t.take p ++ other)[k]? = some opener := by rw [hkept (by omega), hopener]
  have hcloser' : (t.take p ++ other)[m]? = some closer := by rw [hkept hlt, hcloser]
  have hcode : literalLength ((t.take p ++ other).drop m) = 0 := by
    obtain ⟨hm, rfl⟩ := List.getElem?_eq_some_iff.1 hcloser'
    rw [List.drop_eq_getElem_cons hm, literalLength_of_isCloser hkind]
  rw [matchingCloser_eq hopener hkind] at h
  rw [matchingCloser_eq hopener' hkind]
  obtain ⟨before, after, hsplit, hopen⟩ := exists_of_closeAmong (Nat.le_refl 1) h
  have hmet : (m, closer) ∈ scan t (k + 1) := by simp [hsplit]
  obtain ⟨places, -, hscan, hscan'⟩ :=
    scan_take_append_of_le hmet (Nat.le_of_lt hlt) hd hfeed hother
  rw [scan_eq_cons_of_mem hmet] at hscan
  -- Both scans have met the same places when they come to the closer.
  have hsorted := sorted_scan t (k + 1)
  have hsame : before ++ [(m, closer)] = places ++ [(m, closer)] := by
    rw [← filter_le_of_sorted (hsplit ▸ hsorted), ← filter_le_of_sorted (hscan ▸ hsorted), ← hsplit,
      ← hscan]
  rw [hscan', scan_eq_cons hcloser' hcode, ← List.append_cancel_right hsame, closeAmong_append hopen, closeAmong,
    if_neg (ne_of_closerOf hkind).symm, if_pos rfl]
  rfl

end BundleHook.Code
