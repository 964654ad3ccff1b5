import BundleHook.Proofs.Code.Passage

/-!
# Where literals end

A literal that does not reach the end of the text ends with its closing mark or with its line, and a
comment to the end of a line ends before the line feed. So a scan that comes to a character with
blanks before it on its line has come to the first of the blanks.
-/

namespace BundleHook.Code

open Text

/-! ## Literals in the text -/

theorem lengthThrough_le (mark t : Text) :
    lengthThrough mark t ≤ t.length := by
  induction t with
  | nil => exact Nat.le_refl 0
  | cons c rest ih =>
      rw [lengthThrough]
      split
      · next hstarts => exact (List.isPrefixOf_iff_prefix.1 hstarts).length_le
      · exact Nat.succ_le_succ ih

theorem stringTail_le (t : Text) : stringTail t ≤ t.length := by
  fun_induction stringTail t with
  | case1 => exact Nat.le_refl 0
  | case2 => exact Nat.le_refl 1
  | case3 _ _ ih => exact Nat.add_le_add_right ih 2
  | case4 => exact Nat.succ_le_succ (Nat.zero_le _)
  | case5 _ _ _ _ _ ih => exact Nat.succ_le_succ ih

theorem characterTail_le {room n : Nat} {t : Text} (h : characterTail room t = some n) :
    n ≤ t.length := by
  fun_induction characterTail room t generalizing n with
  | case1 | case2 | case3 | case6 => cases h
  | case4 _ _ _ ih =>
      obtain ⟨m, hm, rfl⟩ := Option.map_eq_some_iff.1 h
      exact Nat.add_le_add_right (ih hm) 2
  | case5 =>
      obtain rfl := Option.some.inj h
      exact Nat.succ_le_succ (Nat.zero_le _)
  | case7 _ _ _ _ _ _ _ ih =>
      obtain ⟨m, hm, rfl⟩ := Option.map_eq_some_iff.1 h
      exact Nat.succ_le_succ (ih hm)

theorem literalLength_le (t : Text) : literalLength t ≤ t.length := by
  unfold literalLength
  split
  · exact Nat.add_le_add_right (List.takeWhile_sublist _).length_le 2
  · exact Nat.add_le_add_right (lengthThrough_le _ _) 2
  · exact Nat.add_le_add_right (lengthThrough_le _ _) 3
  · exact Nat.succ_le_succ (stringTail_le _)
  · next rest =>
    refine Nat.succ_le_succ ?_
    cases hclose : characterTail characterRoom rest with
    | none => exact Nat.zero_le _
    | some n => exact characterTail_le hclose
  · exact Nat.zero_le _

/-! ## Last characters -/

theorem lengthThrough_closed {mark t : Text} (h : lengthThrough mark t < t.length) :
    mark <:+ t.take (lengthThrough mark t) := by
  induction t with
  | nil => cases h
  | cons c rest ih =>
      rw [lengthThrough] at h ⊢
      split
      · next hmark =>
        exact (List.prefix_iff_eq_take.1 (List.isPrefixOf_iff_prefix.1 hmark)) ▸ List.suffix_rfl
      · next hmark =>
        rw [if_neg hmark, List.length_cons] at h
        rw [List.take_succ_cons]
        exact (ih (Nat.lt_of_succ_lt_succ h)).trans (List.suffix_cons _ _)

theorem getLast?_of_suffix {t init : Text} {c : Char} (h : init ++ [c] <:+ t) :
    t.getLast? = some c := by
  obtain ⟨before, rfl⟩ := h
  simp

theorem getLast?_cons_of_some {t : Text} {c : Char} (h : t.getLast? = some c) (d : Char) :
    (d :: t).getLast? = some c := by
  rw [List.getLast?_cons, h, Option.getD_some]

/-- Behind the longest prefix of some characters there is another one. -/
theorem getElem?_length_takeWhile {t : Text} (h : (t.takeWhile (· != '\n')).length < t.length) :
    t[(t.takeWhile (· != '\n')).length]? = some '\n' := by
  induction t with
  | nil => cases h
  | cons c rest ih =>
      by_cases hc : c = '\n'
      · subst hc; rfl
      · rw [List.takeWhile_cons_of_pos (by simpa using hc), List.length_cons] at h ⊢
        exact ih (Nat.lt_of_succ_lt_succ h)

theorem stringTail_closed_of_lt {t : Text} (h : stringTail t < t.length) :
    ∃ c, (t.take (stringTail t)).getLast? = some c ∧ (c = '"' ∨ c = '\n') := by
  have hstep {c : Char} {rest : Text} (hc : c ≠ '\\')
      (ih : stringTail rest < rest.length →
        ∃ c, (rest.take (stringTail rest)).getLast? = some c ∧ (c = '"' ∨ c = '\n'))
      (h : stringTail (c :: rest) < rest.length + 1) :
      ∃ d, ((c :: rest).take (stringTail (c :: rest))).getLast? = some d ∧ (d = '"' ∨ d = '\n') := by
    rw [stringTail_cons hc] at h ⊢
    split
    · next hends => exact ⟨c, rfl, hends⟩
    · next hends =>
      rw [if_neg hends] at h
      obtain ⟨d, hd, hmark⟩ := ih (Nat.lt_of_succ_lt_succ h)
      exact ⟨d, getLast?_cons_of_some hd c, hmark⟩
  induction t using List.twoStepInduction with
  | nil => cases h
  | singleton c =>
      by_cases hc : c = '\\'
      · subst hc
        exact absurd h (Nat.lt_irrefl 1)
      · exact hstep hc (fun h => absurd h (Nat.not_lt_zero _)) h
  | cons_cons c d rest ih ihd =>
      by_cases hc : c = '\\'
      · subst hc
        rw [stringTail] at h ⊢
        obtain ⟨e, he, hmark⟩ := ih (by simpa using h)
        exact ⟨e, getLast?_cons_of_some (getLast?_cons_of_some he d) '\\', hmark⟩
      · exact hstep hc (ihd d) h

theorem characterTail_closed {room n : Nat} {t : Text} (h : characterTail room t = some n) :
    (t.take n).getLast? = some '\x27' := by
  have hnil (room : Nat) : characterTail room [] = none := by cases room <;> rfl
  have hstep {room n : Nat} {c : Char} {rest : Text} (hc : c ≠ '\\')
      (ih : ∀ n, characterTail room rest = some n → (rest.take n).getLast? = some '\x27')
      (h : characterTail (room + 1) (c :: rest) = some n) :
      ((c :: rest).take n).getLast? = some '\x27' := by
    rw [characterTail_cons hc] at h
    split at h
    · next hcloses => rw [← Option.some.inj h, hcloses]; rfl
    · split at h
      · cases h
      · obtain ⟨m, hm, rfl⟩ := Option.map_eq_some_iff.1 h
        exact getLast?_cons_of_some (ih m hm) c
  induction t using List.twoStepInduction generalizing room n with
  | nil => rw [hnil] at h; cases h
  | singleton c =>
      cases room with
      | zero => cases h
      | succ room =>
          by_cases hc : c = '\\'
          · subst hc
            cases h
          · exact hstep hc (fun n h => by rw [hnil] at h; cases h) h
  | cons_cons c d rest ih ihd =>
      cases room with
      | zero => cases h
      | succ room =>
          by_cases hc : c = '\\'
          · subst hc
            obtain ⟨m, hm, rfl⟩ := Option.map_eq_some_iff.1 h
            exact getLast?_cons_of_some (getLast?_cons_of_some (ih hm) d) '\\'
          · exact hstep hc (fun n h => ihd d h) h

/-- The last characters of literals and of comments that end with a mark. -/
def literalEnds : Text := "/\"\x27\n".toList

/-- A literal with something behind it ends with a mark or with a line. -/
theorem literalLength_closed {t : Text} (hpos : 0 < literalLength t)
    (h : literalLength t < t.length) :
    (∃ c ∈ literalEnds, (t.take (literalLength t)).getLast? = some c) ∨
      t[literalLength t]? = some '\n' := by
  cases t with
  | nil => cases h
  | cons c rest =>
      by_cases hslash : c = '/'
      · subst hslash
        rw [literalLength_slash] at h hpos ⊢
        cases rest with
        | nil => cases hpos
        | cons d rest =>
            simp only [List.head?_cons, Option.some.injEq, List.drop_one, List.tail_cons] at h hpos ⊢
            split
            · next hline =>
              rw [if_pos hline] at h
              exact .inr (getElem?_length_takeWhile (by simpa using h))
            · next hline =>
              rw [if_neg hline] at h hpos
              split
              · next hblock =>
                rw [if_pos hblock] at h
                have hclosed := @getLast?_of_suffix _ ['*'] _
                  (lengthThrough_closed (by simpa using h))
                exact .inl ⟨'/', by decide,
                  getLast?_cons_of_some (getLast?_cons_of_some hclosed d) '/'⟩
              · next hblock =>
                rw [if_neg hblock] at hpos
                cases hpos
      by_cases hquote : c = '"'
      · subst hquote
        rw [literalLength_quote] at h ⊢
        split
        · next htriple =>
          rw [if_pos htriple] at h
          obtain ⟨rest, rfl⟩ := htriple
          have hclosed := @getLast?_of_suffix _ ['"', '"'] _
            (lengthThrough_closed (t := rest) (by simpa using h))
          exact .inl ⟨'"', by decide,
            getLast?_cons_of_some (getLast?_cons_of_some (getLast?_cons_of_some hclosed '"') '"') '"'⟩
        · next htriple =>
          rw [if_neg htriple] at h
          obtain ⟨d, hd, hmark⟩ := stringTail_closed_of_lt (Nat.lt_of_succ_lt_succ h)
          refine .inl ⟨d, ?_, getLast?_cons_of_some hd '"'⟩
          rcases hmark with rfl | rfl <;> decide
      by_cases hapostrophe : c = '\x27'
      · subst hapostrophe
        refine .inl ⟨'\x27', by decide, ?_⟩
        rw [literalLength_apostrophe]
        cases hclose : characterTail characterRoom rest with
        | none => rfl
        | some n => exact getLast?_cons_of_some (characterTail_closed hclose) '\x27'
      · rw [literalLength_cons hslash hquote hapostrophe] at hpos
        cases hpos

/-! ## Characters before a place -/

/-- A scan that comes to a place has come to the character before it, unless that ends a literal or
the place ends a line. -/
theorem mem_scanFrom_of_succ {index skip m : Nat} {t : Text} {b d : Char}
    (h : (m + 1, d) ∈ scanFrom index skip t) (hle : index + skip ≤ m)
    (hb : t[m - index]? = some b) (hmark : b ∉ literalEnds) (hfeed : d ≠ '\n') :
    (m, b) ∈ scanFrom index skip t := by
  induction t generalizing index skip with
  | nil => cases skip <;> cases h
  | cons c rest ih =>
      have hlater {skip : Nat} (h : (m + 1, d) ∈ scanFrom (index + 1) skip rest)
          (hle : index + 1 + skip ≤ m) : (m, b) ∈ scanFrom (index + 1) skip rest := by
        refine ih h hle ?_
        rwa [show m - index = m - (index + 1) + 1 by omega, List.getElem?_cons_succ] at hb
      cases skip with
      | succ skip => exact hlater h (by omega)
      | zero =>
          rcases hliteral : literalLength (c :: rest) with _ | length
          · rw [scanFrom_code hliteral] at h ⊢
            rcases List.mem_cons.1 h with heq | h
            · have hfirst := congrArg Prod.fst heq
              simp only at hfirst
              omega
            · rcases Nat.eq_or_lt_of_le hle with rfl | hlt
              · rw [Nat.add_zero, Nat.sub_self, List.getElem?_cons_zero] at hb
                obtain rfl := Option.some.inj hb
                exact List.mem_cons_self
              · exact List.mem_cons_of_mem _ (hlater h hlt)
          · have hget := h
            rw [scanFrom_literal hliteral] at h ⊢
            rcases Nat.lt_or_ge m (index + 1 + length) with hend | hbefore
            · -- The literal ends with the character before the place.
              have hreach := add_le_of_mem_scanFrom h
              simp only at hreach
              obtain ⟨n, -, hn, hplace, -⟩ := exists_of_mem_scanFrom hget
              obtain rfl : n = length + 1 := by omega
              have hlength : literalLength (c :: rest) < (c :: rest).length := by
                rw [hliteral]
                exact (List.getElem?_eq_some_iff.1 hplace).1
              rw [show m - index = length by omega] at hb
              rcases literalLength_closed (by omega) hlength with ⟨e, he, hlast⟩ | hline
              · rw [hliteral, List.getLast?_take, if_neg (Nat.succ_ne_zero _), Nat.add_sub_cancel, hb,
                  Option.some_or] at hlast
                obtain rfl := Option.some.inj hlast
                exact absurd he hmark
              · rw [hliteral] at hline
                exact absurd (Option.some.inj (hplace.symm.trans hline)) hfeed
            · exact hlater h hbefore

/-- A scan that comes to a place has come to the first of the blanks before it on its line. -/
theorem exists_mem_scan_of_blank {t : Text} {i p k : Nat} {d : Char} (h : (k, d) ∈ scan t i)
    (hfeed : d ≠ '\n') (hi : i ≤ p) (hk : p ≤ k)
    (hblank : ∀ c ∈ slice t p k, isBlank c = true ∧ c ≠ '\n') :
    ∃ e, (p, e) ∈ scan t i ∧ e ≠ '\n' := by
  obtain ⟨n, rfl⟩ := Nat.exists_eq_add_of_le hk
  induction n generalizing d with
  | zero => exact ⟨d, h, hfeed⟩
  | succ n ih =>
      have hlt : p + n < t.length :=
        Nat.lt_of_succ_lt (List.getElem?_eq_some_iff.1 (getElem?_of_mem_scan h)).1
      rw [← Nat.add_assoc, slice_succ (Nat.le_add_right p n) hlt, List.forall_mem_append, List.forall_mem_singleton] at hblank
      obtain ⟨hbefore, hlast, hlastFeed⟩ := hblank
      have hmark : t[p + n] ∉ literalEnds := by
        intro hmem
        have hends : ∀ c ∈ literalEnds, isBlank c = true → c = '\n' := by decide
        exact hlastFeed (hends _ hmem hlast)
      have hprev : (p + n, t[p + n]) ∈ scan t i := by
        refine mem_scanFrom_of_succ h (by omega) ?_ hmark hfeed
        rw [List.getElem?_drop, show i + (p + n - i) = p + n by omega, List.getElem?_eq_getElem hlt]
      exact ih hlastFeed hprev (Nat.le_add_right p n) hbefore

end BundleHook.Code
