import BundleHook.Proofs.Code.Extent
import BundleHook.Proofs.Code.LookAhead

/-!
# What a scan passes

A scan comes from one place to another when it goes on there as a scan begins there. It comes behind
every delimiter that it closes, to the end of every expression and of every declaration, and through
text without quotes and slashes.

* `Reaches` — a scan comes to a place;
* `codeBetween` — the code that it meets on its way;
* `Passes` — texts that a scan comes through whatever stands behind them.
-/

namespace BundleHook.Code

open Text

/-! ## Places that a scan comes to -/

/-- A scan from `i` on meets only what stands before `k` until it goes on as a scan from `k` on. -/
def Reaches (t : Text) (i k : Nat) : Prop :=
  ∃ places, (∀ place ∈ places, place.1 < k) ∧ scan t i = places ++ scan t k

/-- The code that a scan from `i` on meets before `k`. -/
def codeBetween (t : Text) (i k : Nat) : Text := ((scan t i).filter (·.1 < k)).map Prod.snd

theorem codeBetween_self (t : Text) (i : Nat) : codeBetween t i i = [] := by
  rw [codeBetween, List.filter_eq_nil_iff.2, List.map_nil]
  intro place hplace
  simpa using le_of_mem_scan hplace

namespace Reaches

variable {t : Text} {i k m : Nat} {c : Char}

theorem refl (t : Text) (i : Nat) : Reaches t i i := ⟨[], List.forall_mem_nil _, rfl⟩

theorem filter_eq (h : Reaches t i k) :
    scan t i = (scan t i).filter (·.1 < k) ++ scan t k ∧
      ∀ place ∈ (scan t i).filter (·.1 < k), place.1 < k := by
  obtain ⟨places, hplaces, hscan⟩ := h
  have hfilter : (scan t i).filter (·.1 < k) = places := by
    rw [hscan, List.filter_append, List.filter_eq_self.2 (by simpa using hplaces),
      List.filter_eq_nil_iff.2, List.append_nil]
    intro place hplace
    simpa using le_of_mem_scan hplace
  exact ⟨hfilter.symm ▸ hscan, hfilter.symm ▸ hplaces⟩

theorem trans (hik : Reaches t i k) (hkm : Reaches t k m) (hle : k ≤ m) : Reaches t i m := by
  obtain ⟨places, hplaces, hscan⟩ := hik
  obtain ⟨others, hothers, hscan'⟩ := hkm
  refine ⟨places ++ others, ?_, by rw [hscan, hscan', List.append_assoc]⟩
  rw [List.forall_mem_append]
  exact ⟨fun place hplace => Nat.lt_of_lt_of_le (hplaces place hplace) hle, hothers⟩

theorem of_mem (h : (k, c) ∈ scan t i) : Reaches t i k := by
  obtain ⟨before, hscan⟩ := scan_eq_append h
  refine ⟨before, fun place hplace => ?_, hscan⟩
  have hsorted := sorted_scan t i
  rw [hscan, scan_eq_cons_of_mem h] at hsorted
  exact (List.pairwise_append.1 hsorted).2.2 place hplace _ List.mem_cons_self

/-- A scan steps over what it meets. -/
theorem succ_of_mem (h : (k, c) ∈ scan t i) : Reaches t i (k + 1) := by
  refine (of_mem h).trans ⟨[(k, c)], ?_, scan_eq_cons_of_mem h⟩ (Nat.le_succ k)
  rw [List.forall_mem_singleton]
  exact Nat.lt_succ_self k

theorem mem_iff (h : Reaches t i k) (hle : k ≤ m) : (m, c) ∈ scan t i ↔ (m, c) ∈ scan t k := by
  obtain ⟨places, hplaces, hscan⟩ := h
  rw [hscan, List.mem_append]
  refine or_iff_right fun hmem => ?_
  exact absurd (hplaces _ hmem) (Nat.not_lt.2 hle)

theorem codeBetween_append (hik : Reaches t i k) (hle : k ≤ m) :
    codeBetween t i m = codeBetween t i k ++ codeBetween t k m := by
  obtain ⟨hscan, hplaces⟩ := hik.filter_eq
  unfold codeBetween
  rw [← List.map_append]
  congr 1
  conv => lhs; rw [hscan, List.filter_append]
  congr 1
  rw [List.filter_eq_self]
  intro place hplace
  simpa using Nat.lt_of_lt_of_le (hplaces place hplace) hle

/-- A scan comes behind a delimiter that is closed. -/
theorem matchingCloser {j : Nat} {opener closer : Char} (hopener : t[i]? = some opener)
    (hcloser : closerOf opener = some closer) (h : matchingCloser t i = some j) :
    Reaches t i (j + 1) :=
  succ_of_mem (isLeast_of_matchingCloser hopener hcloser h).1.isCode

end Reaches

/-- Behind what a scan has met it goes on as a scan that begins there. -/
theorem scan_succ_of_split {t : Text} {i k : Nat} {c : Char} {before after : List (Nat × Char)}
    (h : scan t i = before ++ (k, c) :: after) : scan t (k + 1) = after := by
  have hmem : (k, c) ∈ scan t i := by simp [h]
  have hsorted := sorted_scan t i
  obtain ⟨hscan, -⟩ := (Reaches.succ_of_mem hmem).filter_eq
  simp only [Nat.lt_succ_iff] at hscan
  rw [h] at hscan hsorted
  rw [filter_le_of_sorted hsorted, List.append_assoc, List.singleton_append] at hscan
  exact (List.cons.inj (List.append_cancel_left hscan)).2.symm

/-! ## Shifts -/

/-- The places as many characters further on. -/
def shift (n : Nat) (places : List (Nat × Char)) : List (Nat × Char) :=
  places.map fun place => (n + place.1, place.2)

theorem shift_append (n : Nat) (places others : List (Nat × Char)) :
    shift n (places ++ others) = shift n places ++ shift n others := List.map_append

theorem scanFrom_add (n index skip : Nat) (t : Text) :
    scanFrom (n + index) skip t = shift n (scanFrom index skip t) := by
  induction t generalizing index skip with
  | nil => cases skip <;> rfl
  | cons c rest ih =>
      cases skip with
      | succ skip => exact ih (index + 1) skip
      | zero =>
          rcases hliteral : literalLength (c :: rest) with _ | length
          · rw [scanFrom_code hliteral, scanFrom_code hliteral, Nat.add_assoc, ih]
            rfl
          · rw [scanFrom_literal hliteral, scanFrom_literal hliteral, Nat.add_assoc, ih]

theorem scan_eq_shift (t : Text) (i : Nat) : scan t i = shift i (scanFrom 0 0 (t.drop i)) :=
  scanFrom_add i 0 0 _

theorem scanFrom_skip (index skip : Nat) (t : Text) :
    scanFrom index skip t = scanFrom (index + skip) 0 (t.drop skip) := by
  induction skip generalizing index t with
  | zero => rfl
  | succ skip ih =>
      cases t with
      | nil => rfl
      | cons c rest => exact (ih (index + 1) rest).trans (by rw [Nat.add_right_comm]; rfl)

/-! ## Expressions -/

/-- A group between delimiters is passed as a whole. -/
theorem exists_scanFrom_closeOfHead {c : Char} {rest : Text} {length : Nat}
    (h : closeOfHead 0 (c :: rest) = some length) (index : Nat) :
    length ≤ rest.length ∧ ∃ places, (∀ place ∈ places, place.1 < index + 1 + length) ∧
      scanFrom index 0 (c :: rest) = places ++ scanFrom (index + 1) length rest := by
  have hclose : matchingCloser (c :: rest) 0 = some length := h
  obtain ⟨opener, closer, hopener, hcloser, -⟩ := matchingCloser_eq_some hclose
  obtain ⟨places, hplaces, hscan⟩ := Reaches.matchingCloser hopener hcloser hclose
  refine ⟨Nat.le_of_lt_succ (lt_length_of_matchingCloser hclose), shift index places, ?_, ?_⟩
  · intro place hplace
    obtain ⟨place, hmem, rfl⟩ := List.mem_map.1 hplace
    have hlt := hplaces place hmem
    simp only
    omega
  · rw [scan, List.drop_zero, scan, List.drop_succ_cons] at hscan
    calc scanFrom index 0 (c :: rest)
        = shift index (scanFrom 0 0 (c :: rest)) := scanFrom_add index 0 0 _
      _ = shift index places ++ shift index (scanFrom (length + 1) 0 (rest.drop length)) := by
        rw [hscan, shift_append]
      _ = shift index places ++ scanFrom (index + (length + 1)) 0 (rest.drop length) := by
        rw [← scanFrom_add index (length + 1)]
      _ = shift index places ++ scanFrom (index + 1) length rest := by
        rw [scanFrom_skip (index + 1), Nat.add_comm length, Nat.add_assoc]

/-- An expression ends where the scan comes to, or with the text. -/
theorem exists_scanFrom_expressionFrom (stops : Text) (index skip : Nat) (t : Text) :
    ∃ n places, expressionFrom stops index skip t = index + n ∧ min skip t.length ≤ n ∧
      (∀ place ∈ places, place.1 < index + n) ∧
      scanFrom index skip t = places ++ scanFrom (index + n) 0 (t.drop n) := by
  induction t generalizing index skip with
  | nil => exact ⟨0, [], by cases skip <;> rfl, by simp, List.forall_mem_nil _, by cases skip <;> rfl⟩
  | cons c rest ih =>
      -- What is passed first, then what the rest of the text passes.
      have hlater {skip : Nat} {first : List (Nat × Char)}
          (hfirst : ∀ place ∈ first, place.1 < index + 1 + min skip rest.length)
          (hscan : scanFrom index 0 (c :: rest) = first ++ scanFrom (index + 1) skip rest) :
          ∃ n places, expressionFrom stops (index + 1) skip rest = index + n ∧
            (∀ place ∈ places, place.1 < index + n) ∧
            scanFrom index 0 (c :: rest) =
              places ++ scanFrom (index + n) 0 ((c :: rest).drop n) := by
        obtain ⟨n, places, hn, hle, hplaces, hrest⟩ := ih (index + 1) skip
        have hindex : index + 1 + n = index + (n + 1) := by omega
        rw [hindex] at hn hplaces hrest
        refine ⟨n + 1, first ++ places, hn, ?_, ?_⟩
        · rw [List.forall_mem_append]
          refine ⟨fun place hplace => ?_, hplaces⟩
          have hlt := hfirst place hplace
          omega
        · rw [hscan, hrest, List.append_assoc, List.drop_succ_cons]
      have hhere {r : Nat} (h : r = index) :
          ∃ n places, r = index + n ∧ (∀ place ∈ places, place.1 < index + n) ∧
            scanFrom index 0 (c :: rest) = places ++ scanFrom (index + n) 0 ((c :: rest).drop n) :=
        ⟨0, [], h, List.forall_mem_nil _, rfl⟩
      cases skip with
      | succ skip =>
          obtain ⟨n, places, hn, hle, hplaces, hscan⟩ := ih (index + 1) skip
          have hindex : index + 1 + n = index + (n + 1) := by omega
          rw [hindex] at hn hplaces hscan
          exact ⟨n + 1, places, hn, by rw [List.length_cons]; omega, hplaces, hscan⟩
      | zero =>
          simp only [Nat.zero_min, Nat.zero_le, true_and]
          rw [expressionFrom]
          split
          · exact hhere rfl
          rcases hliteral : literalLength (c :: rest) with _ | length
          · simp only
            have hfirst : ∀ place ∈ [(index, c)], place.1 < index + 1 + min 0 rest.length := by
              rw [List.forall_mem_singleton]
              simp only
              omega
            split
            · split
              · next length hclose =>
                obtain ⟨hle, places, hplaces, hscan⟩ := exists_scanFrom_closeOfHead hclose index
                exact hlater (by rwa [Nat.min_eq_left hle]) hscan
              · refine ⟨rest.length + 1, scanFrom index 0 (c :: rest), rfl, ?_, ?_⟩
                · intro place hplace
                  obtain ⟨n, -, hn, hget, -⟩ := exists_of_mem_scanFrom hplace
                  have hlt := (List.getElem?_eq_some_iff.1 hget).1
                  rw [List.length_cons] at hlt
                  omega
                · have hend : (c :: rest).drop (rest.length + 1) = [] := List.drop_length
                  rw [hend]
                  exact (List.append_nil _).symm
            · split
              · exact hhere rfl
              · exact hlater hfirst (scanFrom_code hliteral index)
          · exact hlater (List.forall_mem_nil _) (scanFrom_literal hliteral index)

theorem Reaches.expressionStop {t : Text} {start : Nat} (h : start ≤ t.length) (stops : Text) :
    Reaches t start (expressionStop t start stops) := by
  obtain ⟨n, places, hn, -, hplaces, hscan⟩ :=
    exists_scanFrom_expressionFrom stops start 0 (t.drop start)
  have hstop : Code.expressionStop t start stops = start + n := by
    rw [Code.expressionStop, Nat.min_eq_left h, hn]
  rw [hstop]
  exact ⟨places, hplaces, by rw [scan, hscan, List.drop_drop, scan]⟩

/-! ## Text that is passed -/

/-- A character that begins no literal and no comment. -/
def IsPlain (c : Char) : Prop := c ≠ '/' ∧ c ≠ '"' ∧ c ≠ '\x27'

instance (c : Char) : Decidable (IsPlain c) :=
  inferInstanceAs (Decidable (_ ∧ _ ∧ _))

theorem IsPlain.of_isBlank {c : Char} (h : isBlank c = true) : IsPlain c := by
  refine ⟨?_, ?_, ?_⟩ <;> rintro rfl <;> revert h <;> decide

theorem IsPlain.of_isWord {c : Char} (h : isWord c = true) : IsPlain c := by
  refine ⟨?_, ?_, ?_⟩ <;> rintro rfl <;> revert h <;> decide

theorem stringTail_closed {s : Text} (h : ∀ c ∈ s, c ≠ '"' ∧ c ≠ '\n' ∧ c ≠ '\\')
    (behind : Text) : stringTail (s ++ '"' :: behind) = s.length + 1 := by
  induction s with
  | nil => rfl
  | cons c rest ih =>
      obtain ⟨⟨hquote, hfeed, hbackslash⟩, hrest⟩ := List.forall_mem_cons.1 h
      rw [List.cons_append, stringTail_cons hbackslash, if_neg (not_or.2 ⟨hquote, hfeed⟩), ih hrest,
        List.length_cons]

/-- A scan comes through the text whatever stands behind it, and meets `code` in it. -/
def Passes (t code : Text) : Prop :=
  ∀ index behind, ∃ places, places.map Prod.snd = code ∧
    (∀ place ∈ places, place.1 < index + t.length) ∧
    scanFrom index 0 (t ++ behind) = places ++ scanFrom (index + t.length) 0 behind

namespace Passes

theorem nil : Passes [] [] := fun _ _ => ⟨[], rfl, List.forall_mem_nil _, rfl⟩

theorem append {s t code others : Text} (hs : Passes s code) (ht : Passes t others) :
    Passes (s ++ t) (code ++ others) := by
  intro index behind
  obtain ⟨places, hcode, hplaces, hscan⟩ := hs index (t ++ behind)
  obtain ⟨places', hcode', hplaces', hscan'⟩ := ht (index + s.length) behind
  have hindex : index + s.length + t.length = index + (s ++ t).length := by
    rw [List.length_append, Nat.add_assoc]
  rw [hindex] at hplaces' hscan'
  refine ⟨places ++ places', by rw [List.map_append, hcode, hcode'], ?_, ?_⟩
  · rw [List.forall_mem_append]
    refine ⟨fun place hplace => ?_, hplaces'⟩
    exact Nat.lt_of_lt_of_le (hplaces place hplace) (by rw [List.length_append]; omega)
  · rw [List.append_assoc, hscan, hscan', List.append_assoc]

/-- All of a plain text is code. -/
theorem plain {t : Text} (h : ∀ c ∈ t, IsPlain c) : Passes t t := by
  induction t with
  | nil => exact nil
  | cons c rest ih =>
      obtain ⟨⟨hslash, hquote, hapostrophe⟩, hrest⟩ := List.forall_mem_cons.1 h
      have hhead : Passes [c] [c] := by
        intro index behind
        refine ⟨[(index, c)], rfl, ?_, ?_⟩
        · rw [List.forall_mem_singleton]
          exact Nat.lt_succ_self index
        · exact scanFrom_code (literalLength_cons hslash hquote hapostrophe behind) index
      exact hhead.append (ih hrest)

/-- Nothing of a string literal is code. -/
theorem string {s : Text} (hne : s ≠ []) (hs : ∀ c ∈ s, c ≠ '"' ∧ c ≠ '\n' ∧ c ≠ '\\') :
    Passes ('"' :: (s ++ ['"'])) [] := by
  intro index behind
  have hlength : literalLength ('"' :: (s ++ ['"'] ++ behind)) = s.length + 1 + 1 := by
    rw [literalLength_quote, if_neg, List.append_assoc, List.singleton_append, stringTail_closed hs]
    obtain ⟨c, rest, rfl⟩ := List.exists_cons_of_ne_nil hne
    intro htriple
    exact (hs c List.mem_cons_self).1 (List.cons_prefix_cons.1 htriple).1.symm
  refine ⟨[], rfl, List.forall_mem_nil _, ?_⟩
  have hdrop : (s ++ ['"'] ++ behind).drop (s.length + 1) = behind := List.drop_left' (by simp)
  rw [List.cons_append, scanFrom_literal hlength, scanFrom_skip, hdrop, List.nil_append]
  congr 1
  simp only [List.length_cons, List.length_append, List.length_nil]
  omega

end Passes

/-- A scan comes through a part of a text that is passed. -/
theorem Passes.reaches {t m code : Text} {i k : Nat} (h : Passes m code)
    (hdrop : t.drop i = m ++ t.drop k) (hk : i + m.length = k) :
    Reaches t i k ∧ codeBetween t i k = code := by
  obtain ⟨places, hcode, hplaces, hscan⟩ := h i (t.drop k)
  rw [hk] at hplaces hscan
  have hreaches : Reaches t i k := ⟨places, hplaces, by rw [scan, hdrop, hscan, scan]⟩
  refine ⟨hreaches, ?_⟩
  have hfilter : scan t i = (scan t i).filter (·.1 < k) ++ scan t k := hreaches.filter_eq.1
  have hsplit : scan t i = places ++ scan t k := by rw [scan, hdrop, hscan, scan]
  rw [codeBetween, List.append_cancel_right (hfilter.symm.trans hsplit), hcode]

theorem reaches_of_plain {t : Text} {i k : Nat} (hle : i ≤ k) (hk : k ≤ t.length)
    (h : ∀ c ∈ slice t i k, IsPlain c) : Reaches t i k ∧ codeBetween t i k = slice t i k := by
  refine (Passes.plain h).reaches (slice_append_drop hle).symm ?_
  rw [slice, List.length_drop, List.length_take_of_le hk]
  omega

/-! ## Declarations -/

theorem slice_skipBlanks (t : Text) (index : Nat) :
    slice t index (skipBlanks t index) = (t.drop index).takeWhile isBlank := by
  rw [slice, List.drop_take, skipBlanks, Nat.add_sub_cancel_left]
  exact (List.prefix_iff_eq_take.1 (List.takeWhile_prefix isBlank)).symm

theorem skipBlanks_eq {t : Text} {index stop : Nat} {c : Char} (hle : index ≤ stop)
    (hblank : ∀ c ∈ slice t index stop, isBlank c = true) (hc : t[stop]? = some c)
    (hnot : isBlank c = false) : skipBlanks t index = stop := by
  obtain ⟨hlt, rfl⟩ := List.getElem?_eq_some_iff.1 hc
  have hslice : (slice t index stop).length = stop - index := by
    rw [slice, List.length_drop, List.length_take_of_le (Nat.le_of_lt hlt)]
  rw [skipBlanks, ← slice_append_drop hle, List.drop_eq_getElem_cons hlt,
    List.takeWhile_append_of_pos hblank, List.takeWhile_cons_of_neg (by simp [hnot]),
    List.append_nil, hslice, Nat.add_sub_cancel' hle]

theorem reaches_skipBlanks {t : Text} {index : Nat} (h : index ≤ t.length) :
    Reaches t index (skipBlanks t index) ∧
      codeBetween t index (skipBlanks t index) = (t.drop index).takeWhile isBlank := by
  obtain ⟨hle, hlength⟩ := skipBlanks_le h
  rw [← slice_skipBlanks]
  refine reaches_of_plain hle hlength fun c hc => .of_isBlank ?_
  rw [slice_skipBlanks] at hc
  exact List.all_eq_true.1 List.all_takeWhile c hc

/-- A scan comes to the end of a declaration. -/
theorem Reaches.declarationStop {t : Text} {signatureEnd stop : Nat} (h : signatureEnd ≤ t.length)
    (hstop : declarationStop t signatureEnd = some stop) : Reaches t signatureEnd stop := by
  obtain ⟨hle, hlength⟩ := skipBlanks_le h
  have hbody := (reaches_skipBlanks h).1
  unfold Code.declarationStop at hstop
  simp only at hstop
  split at hstop
  · next behind hbrace =>
    obtain ⟨close, hclose, rfl⟩ := Option.map_eq_some_iff.1 hstop
    have hopener : t[skipBlanks t signatureEnd]? = some '{' := by
      rw [← List.head?_drop, hbrace, List.head?_cons]
    obtain ⟨-, -, -, -, hbehind, -⟩ := matchingCloser_eq_some hclose
    exact hbody.trans (.matchingCloser hopener rfl hclose) (by omega)
  · next behind hsign =>
    have htail : t.drop (skipBlanks t signatureEnd + 1) = behind := by
      rw [← List.drop_drop, hsign]
      rfl
    have hlt : skipBlanks t signatureEnd < t.length := by
      have hlengths := congrArg List.length hsign
      rw [List.length_drop, List.length_cons] at hlengths
      omega
    have hsplit : t.drop (skipBlanks t signatureEnd) =
        ['='] ++ t.drop (skipBlanks t signatureEnd + 1) := by
      rw [hsign, htail, List.singleton_append]
    have hsigned := ((Passes.plain (by decide)).reaches hsplit rfl).1
    obtain ⟨hvalue, hvalueLength⟩ := skipBlanks_le hlt
    split at hstop
    · next hbefore =>
      obtain rfl := Option.some.inj hstop
      exact ((hbody.trans hsigned (Nat.le_succ _)).trans (reaches_skipBlanks hlt).1 hvalue).trans
        (.expressionStop hvalueLength []) (Nat.le_of_lt hbefore)
    · cases hstop
  · cases hstop

/-! ## Patterns of plain text -/

namespace Pattern

/-- The pattern takes characters of a kind only. -/
def TakesOnly (kind : Char → Prop) : Pattern → Prop
  | nothing | edge | lineStart | lineEnd => True
  | one accepts | many accepts => ∀ c, accepts c = true → kind c
  | short _ => ∀ c, kind c
  | both first second | either first second => first.TakesOnly kind ∧ second.TakesOnly kind
  | turns body => body.TakesOnly kind

namespace TakesOnly

variable {kind : Char → Prop} {pattern : Pattern}

theorem exists_taken (h : pattern.TakesOnly kind) {p q : Place} (hmatches : Matches pattern p q) :
    ∃ taken, p.rest = taken ++ q.rest ∧ ∀ c ∈ taken, kind c := by
  induction hmatches with
  | nothing | edge | lineStart | lineEnd | manyStop | shortStop | turnsStop =>
      exact ⟨[], rfl, List.forall_mem_nil _⟩
  | @one _ _ c rest head accepted =>
      exact ⟨[c], head, (List.forall_mem_singleton).2 (h c accepted)⟩
  | @manyMore _ _ _ c rest head accepted _ ih =>
      obtain ⟨taken, hrest, htaken⟩ := ih h
      exact ⟨c :: taken, head.trans (congrArg (c :: ·) hrest),
        List.forall_mem_cons.2 ⟨h c accepted, htaken⟩⟩
  | @shortMore _ _ _ c rest head _ _ ih =>
      obtain ⟨taken, hrest, htaken⟩ := ih h
      exact ⟨c :: taken, head.trans (congrArg (c :: ·) hrest),
        List.forall_mem_cons.2 ⟨h c, htaken⟩⟩
  | both _ _ left right =>
      obtain ⟨taken, hrest, htaken⟩ := left h.1
      obtain ⟨others, hothers, hkind⟩ := right h.2
      exact ⟨taken ++ others, by rw [hrest, hothers, List.append_assoc],
        List.forall_mem_append.2 ⟨htaken, hkind⟩⟩
  | first _ ih => exact ih h.1
  | second _ ih => exact ih h.2
  | turnsMore _ _ _ turn tail =>
      obtain ⟨taken, hrest, htaken⟩ := turn h
      obtain ⟨others, hothers, hkind⟩ := tail h
      exact ⟨taken ++ others, by rw [hrest, hothers, List.append_assoc],
        List.forall_mem_append.2 ⟨htaken, hkind⟩⟩

theorem mem_slice (h : pattern.TakesOnly kind) {t : Text} {span : Span}
    (hmatches : pattern.MatchesAt t span) : ∀ c ∈ slice t span.start span.stop, kind c := by
  obtain ⟨hle, -, hmatches⟩ := hmatches
  obtain ⟨taken, hrest, htaken⟩ := h.exists_taken hmatches
  have hslice : t.drop span.start = slice t span.start span.stop ++ t.drop span.stop :=
    (slice_append_drop hle).symm
  rwa [List.append_cancel_right (hslice.symm.trans hrest)]

theorem append_iff {first second : Pattern} :
    (first ++ second).TakesOnly kind ↔ first.TakesOnly kind ∧ second.TakesOnly kind := Iff.rfl

theorem maybe_iff : (maybe pattern).TakesOnly kind ↔ pattern.TakesOnly kind :=
  ⟨And.left, fun h => ⟨h, trivial⟩⟩

theorem turns_iff : (turns pattern).TakesOnly kind ↔ pattern.TakesOnly kind := Iff.rfl

theorem text_iff {w : Text} : (text w).TakesOnly kind ↔ ∀ c ∈ w, kind c := by
  induction w with
  | nil => exact iff_of_true trivial (List.forall_mem_nil _)
  | cons c w ih =>
      rw [List.forall_mem_cons, ← ih]
      refine and_congr_left' ⟨fun h => h c (beq_self_eq_true c), fun h d hd => ?_⟩
      rwa [beq_iff_eq.1 hd]

theorem word_iff {w : String} : (word w).TakesOnly kind ↔ ∀ c ∈ w.toList, kind c := text_iff

theorem oneOf_iff {words : List String} :
    (oneOf words).TakesOnly kind ↔ ∀ w ∈ words, ∀ c ∈ w.toList, kind c := by
  induction words with
  | nil => exact iff_of_true (fun _ hc => absurd hc Bool.false_ne_true) (List.forall_mem_nil _)
  | cons w others ih =>
      cases others with
      | nil => rw [List.forall_mem_singleton, ← word_iff, oneOf]
      | cons next later =>
          rw [List.forall_mem_cons, ← ih, ← word_iff]
          exact Iff.rfl

end TakesOnly

end Pattern

end BundleHook.Code
