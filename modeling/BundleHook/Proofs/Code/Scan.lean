import Mathlib.Order.Bounds.Defs
import BundleHook.Code.Delimiter

/-!
# Matching delimiters are matched in code

A scan passes over literals and comments as a whole and comes to all other characters, which are
code. The closer of a delimiter is the first one in code at which the scan has met as many closers
as openers, and pairs that are matched stand inside each other or apart.

* `scan` — the code that a scan comes to;
* `Closes` — a closer at which openers and closers are even;
* `closeFrom_eq` — the search for a closer reads code alone;
* `matchingCloser_inside` — an opener inside a pair is closed inside it.
-/

namespace BundleHook.Code

/-! ## Code -/

/-- The places of code in a text whose head has the offset `index`; the next `skip` characters belong
to a literal. -/
def scanFrom : (index skip : Nat) → Text → List (Nat × Char)
  | _, _, [] => []
  | index, skip + 1, _ :: rest => scanFrom (index + 1) skip rest
  | index, 0, c :: rest =>
    match literalLength (c :: rest) with
    | length + 1 => scanFrom (index + 1) length rest
    | 0 => (index, c) :: scanFrom (index + 1) 0 rest

/-- The places of code that a scan from `start` on comes to, each with its character. -/
def scan (t : Text) (start : Nat) : List (Nat × Char) := scanFrom start 0 (t.drop start)

section Steps

variable {c : Char} {rest : Text} {length : Nat}

theorem scanFrom_literal (h : literalLength (c :: rest) = length + 1) (index : Nat) :
    scanFrom index 0 (c :: rest) = scanFrom (index + 1) length rest := by
  rw [scanFrom, h]

theorem scanFrom_code (h : literalLength (c :: rest) = 0) (index : Nat) :
    scanFrom index 0 (c :: rest) = (index, c) :: scanFrom (index + 1) 0 rest := by
  rw [scanFrom, h]

theorem closeFrom_literal {opener closer : Char} (h : literalLength (c :: rest) = length + 1)
    (index depth : Nat) :
    closeFrom opener closer index 0 depth (c :: rest) =
      closeFrom opener closer (index + 1) length depth rest := by
  rw [closeFrom, h]

end Steps

/-- What is met stands in the text, and the scan goes on from there as it would begin there. -/
theorem exists_of_mem_scanFrom {index skip : Nat} {t : Text} {place : Nat × Char}
    (h : place ∈ scanFrom index skip t) :
    ∃ n before, place.1 = index + n ∧ t[n]? = some place.2 ∧
      scanFrom index skip t = before ++ scanFrom place.1 0 (t.drop n) ∧
      scanFrom place.1 0 (t.drop n) = place :: scanFrom (place.1 + 1) 0 (t.drop (n + 1)) := by
  induction t generalizing index skip with
  | nil => cases skip <;> cases h
  | cons c rest ih =>
      have hlater {skip : Nat} (h : place ∈ scanFrom (index + 1) skip rest) :
          ∃ n before, place.1 = index + n ∧ (c :: rest)[n]? = some place.2 ∧
            scanFrom (index + 1) skip rest = before ++ scanFrom place.1 0 ((c :: rest).drop n) ∧
            scanFrom place.1 0 ((c :: rest).drop n) =
              place :: scanFrom (place.1 + 1) 0 ((c :: rest).drop (n + 1)) := by
        obtain ⟨n, before, hn, hplace, hscan, hhead⟩ := ih h
        exact ⟨n + 1, before, by omega, hplace, hscan, hhead⟩
      cases skip with
      | succ skip => exact hlater h
      | zero =>
          rcases hliteral : literalLength (c :: rest) with _ | length
          · have hscan := scanFrom_code hliteral index
            rw [hscan] at h
            rcases List.mem_cons.1 h with rfl | h
            · exact ⟨0, [], rfl, rfl, rfl, hscan⟩
            · obtain ⟨n, before, hn, hplace, hlast, hhead⟩ := hlater h
              exact ⟨n, (index, c) :: before, hn, hplace,
                by rw [hscan, hlast, List.cons_append], hhead⟩
          · rw [scanFrom_literal hliteral] at h ⊢
            exact hlater h

theorem le_of_mem_scanFrom {index skip : Nat} {t : Text} {place : Nat × Char}
    (h : place ∈ scanFrom index skip t) : index ≤ place.1 := by
  obtain ⟨n, -, hn, -⟩ := exists_of_mem_scanFrom h
  omega

theorem sorted_scanFrom (index skip : Nat) (t : Text) :
    (scanFrom index skip t).Pairwise (·.1 < ·.1) := by
  induction t generalizing index skip with
  | nil => cases skip <;> exact .nil
  | cons c rest ih =>
      cases skip with
      | succ skip => exact ih _ _
      | zero =>
          rcases hliteral : literalLength (c :: rest) with _ | length
          · rw [scanFrom_code hliteral]
            exact .cons (fun place hplace => le_of_mem_scanFrom hplace) (ih _ _)
          · rw [scanFrom_literal hliteral]
            exact ih _ _

section Scan

variable {t : Text} {i k : Nat} {c : Char}

theorem sorted_scan (t : Text) (i : Nat) : (scan t i).Pairwise (·.1 < ·.1) := sorted_scanFrom _ _ _

theorem le_of_mem_scan (h : (k, c) ∈ scan t i) : i ≤ k := le_of_mem_scanFrom h

theorem getElem?_of_mem_scan (h : (k, c) ∈ scan t i) : t[k]? = some c := by
  obtain ⟨n, -, rfl, hplace, -⟩ := exists_of_mem_scanFrom h
  rwa [List.getElem?_drop] at hplace

/-- From what it has met a scan goes on as a scan that begins there. -/
theorem scan_eq_append (h : (k, c) ∈ scan t i) : ∃ before, scan t i = before ++ scan t k := by
  obtain ⟨n, before, rfl, -, hscan, -⟩ := exists_of_mem_scanFrom h
  exact ⟨before, by rw [scan, hscan, List.drop_drop, scan]⟩

/-- What a scan has met is the first that a scan from there meets. -/
theorem scan_eq_cons_of_mem (h : (k, c) ∈ scan t i) : scan t k = (k, c) :: scan t (k + 1) := by
  obtain ⟨n, -, rfl, -, -, hhead⟩ := exists_of_mem_scanFrom h
  rwa [List.drop_drop, List.drop_drop, ← Nat.add_assoc] at hhead

/-- A character that begins no literal is the first to be met. -/
theorem scan_eq_cons (hc : t[i]? = some c) (hcode : literalLength (t.drop i) = 0) :
    scan t i = (i, c) :: scan t (i + 1) := by
  obtain ⟨hlt, rfl⟩ := List.getElem?_eq_some_iff.1 hc
  rw [List.drop_eq_getElem_cons hlt] at hcode
  rw [scan, List.drop_eq_getElem_cons hlt, scanFrom_code hcode, scan]

end Scan

/-! ## Closers -/

section Among

variable {opener closer : Char}

/-- How often a character has been met. -/
def timesMet (c : Char) (places : List (Nat × Char)) : Nat := places.countP (·.2 == c)

theorem timesMet_cons_self (i : Nat) (c : Char) (places : List (Nat × Char)) :
    timesMet c ((i, c) :: places) = timesMet c places + 1 :=
  List.countP_cons_of_pos (beq_self_eq_true c)

theorem timesMet_cons_of_ne {i : Nat} {c d : Char} (h : d ≠ c) (places : List (Nat × Char)) :
    timesMet c ((i, d) :: places) = timesMet c places :=
  List.countP_cons_of_neg (by simpa using h)

variable (opener closer) in
/-- The offset of the first place that balances `depth` openers. -/
def closeAmong : (depth : Nat) → List (Nat × Char) → Option Nat
  | _, [] => none
  | depth, (index, c) :: places =>
    if c = opener then closeAmong (depth + 1) places
    else if c = closer then if depth ≤ 1 then some index else closeAmong (depth - 1) places
    else closeAmong depth places

/-- Looking for a closer is a matter of code alone. -/
theorem closeFrom_eq (index skip depth : Nat) (t : Text) :
    closeFrom opener closer index skip depth t =
      closeAmong opener closer depth (scanFrom index skip t) := by
  induction t generalizing index skip depth with
  | nil => cases skip <;> rfl
  | cons c rest ih =>
      cases skip with
      | succ skip => exact ih _ _ _
      | zero =>
          rcases hliteral : literalLength (c :: rest) with _ | length
          · rw [scanFrom_code hliteral, closeFrom, hliteral]
            simp only [closeAmong, ih]
          · rw [scanFrom_literal hliteral, closeFrom_literal hliteral]
            exact ih _ _ _

theorem mem_of_closeAmong {depth j : Nat} {places : List (Nat × Char)}
    (h : closeAmong opener closer depth places = some j) : j ∈ places.map Prod.fst := by
  fun_induction closeAmong opener closer depth places with
  | case1 => cases h
  | case2 _ _ _ ih | case4 _ _ _ _ _ ih | case5 _ _ _ _ _ _ ih =>
      exact List.mem_cons_of_mem _ (ih h)
  | case3 => exact List.mem_cons.2 (.inl (Option.some.inj h).symm)

/-- A closer that is found is even with the openers before it. -/
theorem even_of_closeAmong {depth j : Nat} {places : List (Nat × Char)} (hne : opener ≠ closer)
    (hdepth : 1 ≤ depth) (h : closeAmong opener closer depth places = some j) :
    ∃ before after, places = before ++ (j, closer) :: after ∧
      depth + timesMet opener before = timesMet closer before + 1 := by
  induction places generalizing depth with
  | nil => cases h
  | cons place places ih =>
      obtain ⟨index, c⟩ := place
      rw [closeAmong] at h
      split at h
      · next hopens =>
        subst hopens
        obtain ⟨before, after, rfl, heven⟩ := ih (by omega) h
        refine ⟨(index, c) :: before, after, rfl, ?_⟩
        rw [timesMet_cons_self, timesMet_cons_of_ne hne]
        omega
      · next hopens =>
        split at h
        · next hcloses =>
          subst hcloses
          split at h
          · obtain rfl := Option.some.inj h
            exact ⟨[], places, rfl, by simp only [timesMet, List.countP_nil]; omega⟩
          · obtain ⟨before, after, rfl, heven⟩ := ih (by omega) h
            refine ⟨(index, c) :: before, after, rfl, ?_⟩
            rw [timesMet_cons_self, timesMet_cons_of_ne hopens]
            omega
        · next hcloses =>
          obtain ⟨before, after, rfl, heven⟩ := ih hdepth h
          refine ⟨(index, c) :: before, after, rfl, ?_⟩
          rw [timesMet_cons_of_ne hopens, timesMet_cons_of_ne hcloses]
          exact heven

/-- Where a closer is even with the openers before it, a closer has been found. -/
theorem closeAmong_of_even {depth j : Nat} {before after : List (Nat × Char)}
    (hne : opener ≠ closer)
    (heven : depth + timesMet opener before ≤ timesMet closer before + 1) :
    ∃ r ∈ (before ++ [(j, closer)]).map Prod.fst,
      closeAmong opener closer depth (before ++ (j, closer) :: after) = some r := by
  induction before generalizing depth with
  | nil =>
      refine ⟨j, by simp, ?_⟩
      have hdepth : depth ≤ 1 := by simpa [timesMet] using heven
      simp only [List.nil_append, closeAmong, if_neg hne.symm, if_true, if_pos hdepth]
  | cons place before ih =>
      obtain ⟨index, c⟩ := place
      have hlater {depth : Nat} (heven : depth + timesMet opener before ≤
          timesMet closer before + 1) : ∃ r ∈ ((index, c) :: before ++ [(j, closer)]).map Prod.fst,
            closeAmong opener closer depth (before ++ (j, closer) :: after) = some r := by
        obtain ⟨r, hr, hclose⟩ := ih heven
        exact ⟨r, List.mem_cons_of_mem _ hr, hclose⟩
      simp only [List.cons_append, closeAmong]
      split
      · next hopens =>
        subst hopens
        rw [timesMet_cons_self, timesMet_cons_of_ne hne] at heven
        exact hlater (by omega)
      · next hopens =>
        split
        · next hcloses =>
          subst hcloses
          rw [timesMet_cons_self, timesMet_cons_of_ne hopens] at heven
          split
          · exact ⟨index, by simp, rfl⟩
          · exact hlater (by omega)
        · next hcloses =>
          rw [timesMet_cons_of_ne hopens, timesMet_cons_of_ne hcloses] at heven
          exact hlater heven

/-- With fewer openers to balance a closer is found earlier. -/
theorem closeAmong_of_deeper {depth more j : Nat} {places : List (Nat × Char)}
    (hsorted : places.Pairwise (·.1 < ·.1)) (hdepth : 1 ≤ depth) (hmore : 1 ≤ more)
    (h : closeAmong opener closer (depth + more) places = some j) :
    ∃ m < j, m ∈ places.map Prod.fst ∧ closeAmong opener closer depth places = some m := by
  induction places generalizing depth with
  | nil => cases h
  | cons place places ih =>
      obtain ⟨index, c⟩ := place
      obtain ⟨hfirst, hsorted⟩ := List.pairwise_cons.1 hsorted
      have hlater {depth : Nat} (hdepth : 1 ≤ depth)
          (h : closeAmong opener closer (depth + more) places = some j) :
          ∃ m < j, m ∈ ((index, c) :: places).map Prod.fst ∧
            closeAmong opener closer depth places = some m := by
        obtain ⟨m, hlt, hmem, hclose⟩ := ih hsorted hdepth h
        exact ⟨m, hlt, List.mem_cons_of_mem _ hmem, hclose⟩
      rw [closeAmong] at h ⊢
      split at h
      · next hopens =>
        rw [if_pos hopens]
        exact hlater (by omega) (by rwa [Nat.add_right_comm])
      · next hopens =>
        rw [if_neg hopens]
        split at h
        · next hcloses =>
          rw [if_pos hcloses]
          rw [if_neg (by omega)] at h
          split
          · obtain ⟨place, hplace, rfl⟩ := List.mem_map.1 (mem_of_closeAmong h)
            exact ⟨index, hfirst place hplace, by simp, rfl⟩
          · exact hlater (by omega) (by rwa [Nat.sub_add_comm (by omega)] at h)
        · next hcloses =>
          rw [if_neg hcloses]
          exact hlater hdepth h

/-- A closer that is not found before a place is found from there on, with openers left to balance. -/
theorem exists_closeAmong_of_append {depth j : Nat} {before after : List (Nat × Char)}
    (hdepth : 1 ≤ depth) (hbefore : j ∉ before.map Prod.fst)
    (h : closeAmong opener closer depth (before ++ after) = some j) :
    ∃ left ≥ 1, closeAmong opener closer left after = some j := by
  induction before generalizing depth with
  | nil => exact ⟨depth, hdepth, h⟩
  | cons place before ih =>
      obtain ⟨index, c⟩ := place
      obtain ⟨hindex, hbefore⟩ := not_or.1 (mt List.mem_cons.2 hbefore)
      rw [List.cons_append, closeAmong] at h
      split at h
      · exact ih (by omega) hbefore h
      · split at h
        · split at h
          · exact absurd (Option.some.inj h).symm hindex
          · exact ih (by omega) hbefore h
        · exact ih hdepth hbefore h

end Among

/-! ## The closer of a delimiter -/

/-- How often a scan from `i` on has met a character when it has passed `j`. -/
def metThrough (t : Text) (i j : Nat) (c : Char) : Nat :=
  timesMet c ((scan t i).filter (·.1 ≤ j))

/-- A scan from `i` on comes to a closer at `j` and has met as many openers as closers then. -/
structure Closes (t : Text) (opener closer : Char) (i j : Nat) : Prop where
  behind : i < j
  isCode : (j, closer) ∈ scan t i
  even : metThrough t i j opener = metThrough t i j closer

theorem filter_le_of_sorted {before after : List (Nat × Char)} {j : Nat} {c : Char}
    (h : (before ++ (j, c) :: after).Pairwise (·.1 < ·.1)) :
    (before ++ (j, c) :: after).filter (·.1 ≤ j) = before ++ [(j, c)] := by
  obtain ⟨-, hafter, hbefore⟩ := List.pairwise_append.1 h
  have hlater := (List.pairwise_cons.1 hafter).1
  rw [List.filter_append, List.filter_cons_of_pos (by simp), List.filter_eq_self.2 ?_,
    List.filter_eq_nil_iff.2 ?_]
  · intro place hplace
    simpa using hlater place hplace
  · intro place hplace
    simpa using Nat.le_of_lt (hbefore place hplace (j, c) List.mem_cons_self)

section Delimiters

variable {t : Text} {i : Nat} {opener closer : Char}

theorem ne_of_closerOf (h : closerOf opener = some closer) : opener ≠ closer := by
  rintro rfl
  unfold closerOf at h
  split at h <;> cases h

theorem literalLength_of_closerOf (h : closerOf opener = some closer) (rest : Text) :
    literalLength (opener :: rest) = 0 := by
  unfold closerOf at h
  split at h
  · rfl
  · rfl
  · rfl
  · cases h

variable (hopener : t[i]? = some opener) (hcloser : closerOf opener = some closer)

include hopener hcloser

theorem scan_eq_opener : scan t i = (i, opener) :: scan t (i + 1) := by
  obtain ⟨hlt, rfl⟩ := List.getElem?_eq_some_iff.1 hopener
  refine scan_eq_cons hopener ?_
  rw [List.drop_eq_getElem_cons hlt, literalLength_of_closerOf hcloser]

/-- The opener itself is the first to be balanced. -/
theorem matchingCloser_eq : matchingCloser t i = closeAmong opener closer 1 (scan t (i + 1)) := by
  have hhead : (t.drop i).head? = some opener := by rw [List.head?_drop, hopener]
  have hclose : matchingCloser t i = closeFrom opener closer i 0 0 (t.drop i) := by
    simp only [matchingCloser, closeOfHead, hhead, Option.bind_eq_bind, Option.bind_some, hcloser]
  have hscan := scan_eq_opener hopener hcloser
  rw [hclose, closeFrom_eq]
  unfold scan at hscan ⊢
  rw [hscan, closeAmong, if_pos rfl]

/-- What closes is even with the openers before it, the one that is closed among them. -/
theorem closes_iff {j : Nat} :
    Closes t opener closer i j ↔ ∃ before after, scan t (i + 1) = before ++ (j, closer) :: after ∧
      1 + timesMet opener before = timesMet closer before + 1 := by
  have hne := ne_of_closerOf hcloser
  have hscan := scan_eq_opener hopener hcloser
  have hsorted := sorted_scan t i
  rw [hscan] at hsorted
  -- What has been met at a closer, by what stands before it.
  have hmet {before after : List (Nat × Char)}
      (hsplit : scan t (i + 1) = before ++ (j, closer) :: after) :
      metThrough t i j opener = timesMet opener before + 1 ∧
        metThrough t i j closer = timesMet closer before + 1 := by
    rw [hsplit, ← List.cons_append] at hsorted
    have hfilter := filter_le_of_sorted hsorted
    have hlast (c : Char) : metThrough t i j c =
        timesMet c ((i, opener) :: (before ++ [(j, closer)])) := by
      rw [metThrough, hscan, hsplit, ← List.cons_append, hfilter, List.cons_append]
    rw [hlast, hlast, timesMet_cons_self, timesMet_cons_of_ne hne]
    simp [timesMet, hne.symm]
  constructor
  · rintro ⟨hlt, hcode, heven⟩
    rw [hscan] at hcode
    rcases List.mem_cons.1 hcode with heq | hcode
    · exact absurd (congrArg Prod.fst heq) (Nat.ne_of_gt hlt)
    · obtain ⟨before, after, hsplit⟩ := List.append_of_mem hcode
      obtain ⟨hopeners, hclosers⟩ := hmet hsplit
      exact ⟨before, after, hsplit, by omega⟩
  · rintro ⟨before, after, hsplit, heven⟩
    obtain ⟨hopeners, hclosers⟩ := hmet hsplit
    have hcode : (j, closer) ∈ scan t (i + 1) := by simp [hsplit]
    exact ⟨le_of_mem_scan hcode, hscan ▸ List.mem_cons_of_mem _ hcode, by omega⟩

theorem isLeast_of_matchingCloser {j : Nat} (h : matchingCloser t i = some j) :
    IsLeast {j | Closes t opener closer i j} j := by
  have hne := ne_of_closerOf hcloser
  have hsorted := sorted_scan t (i + 1)
  rw [matchingCloser_eq hopener hcloser] at h
  constructor
  · obtain ⟨before, after, hsplit, heven⟩ := even_of_closeAmong hne (Nat.le_refl 1) h
    exact (closes_iff hopener hcloser).2 ⟨before, after, hsplit, heven⟩
  · intro other hother
    obtain ⟨before, after, hsplit, heven⟩ := (closes_iff hopener hcloser).1 hother
    rw [hsplit] at h hsorted
    obtain ⟨r, hr, hclose⟩ := @closeAmong_of_even _ _ 1 other before after hne (by omega)
    obtain rfl := Option.some.inj (hclose.symm.trans h)
    -- What is found is the closer or stands before it.
    obtain ⟨place, hplace, rfl⟩ := List.mem_map.1 hr
    rcases List.mem_append.1 hplace with hbefore | hlast
    · exact Nat.le_of_lt ((List.pairwise_append.1 hsorted).2.2 place hbefore _ List.mem_cons_self)
    · exact Nat.le_of_eq (congrArg Prod.fst (List.mem_singleton.1 hlast))

theorem exists_matchingCloser_of_closes {j : Nat} (h : Closes t opener closer i j) :
    ∃ r, matchingCloser t i = some r := by
  obtain ⟨before, after, hsplit, heven⟩ := (closes_iff hopener hcloser).1 h
  obtain ⟨r, -, hclose⟩ := @closeAmong_of_even _ _ 1 j before after (ne_of_closerOf hcloser) (by omega)
  exact ⟨r, by rw [matchingCloser_eq hopener hcloser, hsplit, hclose]⟩

/-- Inside a pair an opener of the same kind is closed inside the pair. -/
theorem matchingCloser_inside {j k : Nat} (h : matchingCloser t i = some j)
    (hk : (k, opener) ∈ scan t i) (hbehind : i < k) (hbefore : k < j) :
    ∃ m, matchingCloser t k = some m ∧ k < m ∧ m < j := by
  rw [matchingCloser_eq hopener hcloser] at h
  have hkopener := getElem?_of_mem_scan hk
  -- The scan behind the outer opener comes to the inner one.
  have hinner : (k, opener) ∈ scan t (i + 1) := by
    rw [scan_eq_opener hopener hcloser] at hk
    rcases List.mem_cons.1 hk with heq | hk
    · exact absurd (congrArg Prod.fst heq) (Nat.ne_of_gt hbehind)
    · exact hk
  obtain ⟨before, hsplit⟩ := scan_eq_append hinner
  have hsorted := sorted_scan t (i + 1)
  rw [scan_eq_opener hkopener hcloser] at hsplit
  rw [hsplit] at h hsorted
  have hearlier : j ∉ before.map Prod.fst := by
    intro hj
    obtain ⟨place, hplace, rfl⟩ := List.mem_map.1 hj
    exact absurd ((List.pairwise_append.1 hsorted).2.2 place hplace _ List.mem_cons_self)
      (Nat.not_lt.2 (Nat.le_of_lt hbefore))
  obtain ⟨left, hleft, hclose⟩ := exists_closeAmong_of_append (Nat.le_refl 1) hearlier h
  -- The outer closer balances the inner opener and the openers left.
  rw [closeAmong, if_pos rfl, Nat.add_comm] at hclose
  obtain ⟨m, hlt, hmem, hfound⟩ :=
    closeAmong_of_deeper (sorted_scan t (k + 1)) (Nat.le_refl 1) hleft hclose
  obtain ⟨place, hplace, rfl⟩ := List.mem_map.1 hmem
  exact ⟨place.1, by rw [matchingCloser_eq hkopener hcloser, hfound], le_of_mem_scan hplace, hlt⟩

end Delimiters

/-- The closer of a delimiter is the first in code at which openers and closers are even; where there
is none, there is no closer. Pairs of one kind that meet stand inside each other. -/
theorem matchingCloser_matches (t : Text) (i : Nat) (opener closer : Char)
    (hopener : t[i]? = some opener) (hcloser : closerOf opener = some closer) :
    (∀ j, matchingCloser t i = some j ↔ IsLeast {j | Closes t opener closer i j} j) ∧
    (matchingCloser t i = none ↔ ∀ j, ¬ Closes t opener closer i j) ∧
    ∀ j k, matchingCloser t i = some j → (k, opener) ∈ scan t i → i < k → k < j →
      ∃ m, matchingCloser t k = some m ∧ k < m ∧ m < j := by
  have hleast (j : Nat) (hj : IsLeast {j | Closes t opener closer i j} j) :
      matchingCloser t i = some j := by
    obtain ⟨r, hr⟩ := exists_matchingCloser_of_closes hopener hcloser hj.1
    have hfirst := isLeast_of_matchingCloser hopener hcloser hr
    rw [hr, Nat.le_antisymm (hfirst.2 hj.1) (hj.2 hfirst.1)]
  refine ⟨fun j => ⟨isLeast_of_matchingCloser hopener hcloser, hleast j⟩, ⟨?_, ?_⟩, ?_⟩
  · intro hnone j hcloses
    obtain ⟨r, hr⟩ := exists_matchingCloser_of_closes hopener hcloser hcloses
    rw [hnone] at hr
    cases hr
  · intro hnone
    refine Option.eq_none_iff_forall_ne_some.2 fun j hj => ?_
    exact hnone j (isLeast_of_matchingCloser hopener hcloser hj).1
  · intro j k hj hk hbehind hbefore
    exact matchingCloser_inside hopener hcloser hj hk hbehind hbefore

/-- The closer of the outer pair of `(a(b))`. -/
theorem matchingCloser_matches_pairInPair :
    IsLeast {j | Closes "(a(b))".toList '(' ')' 0 j} 5 :=
  ((matchingCloser_matches "(a(b))".toList 0 '(' ')' (by decide) (by decide)).1 5).1 (by decide)

end BundleHook.Code
