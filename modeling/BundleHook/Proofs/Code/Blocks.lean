import BundleHook.Proofs.Code.Nesting
import Mathlib.Data.Nat.Find

/-!
# Blocks

The brace blocks of a text stand inside each other or apart, so that two places have the same
innermost block exactly when they stand in the same blocks. Lines that are put in behind a line of
code move what stands behind them and leave every block whole.

* `IsBlock`, `Innermost` — blocks, and the innermost one around a place;
* `innermost_congr_iff` — places with the same innermost block;
* `innermost_behindLine_iff` — when what is put in has the innermost block of a place before it.
-/

namespace BundleHook.Code

open Text

/-- A pair of braces in code. -/
structure IsBlock (t : Text) (o c : Nat) : Prop where
  isCode : (o, '\x7b') ∈ scan t 0
  closes : matchingCloser t o = some c

/-- The block around a place that opens last. -/
structure Innermost (t : Text) (k o c : Nat) : Prop where
  block : IsBlock t o c
  before : o < k
  behind : k < c
  last : ∀ o' c', IsBlock t o' c' → o' < k → k < c' → o' ≤ o

namespace IsBlock

variable {t : Text} {o c o' c' k : Nat}

theorem opener (h : IsBlock t o c) : t[o]? = some '\x7b' := getElem?_of_mem_scan h.isCode

theorem lt (h : IsBlock t o c) : o < c := (isLeast_of_matchingCloser h.opener rfl h.closes).1.behind

theorem unique (h : IsBlock t o c) (h' : IsBlock t o c') : c = c' :=
  Option.some.inj (h.closes.symm.trans h'.closes)

/-- A block that opens in a block closes in it. -/
theorem inside (h : IsBlock t o c) (h' : IsBlock t o' c') (hbehind : o < o') (hbefore : o' < c) :
    c' < c := by
  have hcode := ((Reaches.of_mem h.isCode).mem_iff (Nat.le_of_lt hbehind)).1 h'.isCode
  obtain ⟨m, hm, -, hlt⟩ := matchingCloser_inside h.opener rfl h.closes hcode hbehind hbefore
  obtain rfl := Option.some.inj (hm.symm.trans h'.closes)
  exact hlt

/-- A place that stands in a block has an innermost one. -/
theorem exists_innermost (h : IsBlock t o c) (hbefore : o < k) (hbehind : k < c) :
    ∃ o' c', Innermost t k o' c' := by
  classical
  have hhere : ∃ c, IsBlock t o c ∧ o < k ∧ k < c := ⟨c, h, hbefore, hbehind⟩
  obtain ⟨c', hblock, hlt, hlt'⟩ := Nat.findGreatest_spec
    (P := fun o => ∃ c, IsBlock t o c ∧ o < k ∧ k < c) (Nat.le_of_lt hbefore) hhere
  refine ⟨_, c', hblock, hlt, hlt', fun other close hother hle hle' => ?_⟩
  exact Nat.le_findGreatest (Nat.le_of_lt hle) ⟨close, hother, hle, hle'⟩

end IsBlock

/-- Every block around a place stands around the whole innermost one. -/
theorem Innermost.within {t : Text} {k o c o' c' : Nat} (h : Innermost t k o c)
    (hblock : IsBlock t o' c') (hbefore : o' < k) (hbehind : k < c') : o' ≤ o ∧ c ≤ c' := by
  have hle := h.last o' c' hblock hbefore hbehind
  refine ⟨hle, ?_⟩
  rcases Nat.eq_or_lt_of_le hle with rfl | hlt
  · exact Nat.le_of_eq (h.block.unique hblock)
  · exact Nat.le_of_lt (hblock.inside h.block hlt (Nat.lt_trans h.before hbehind))

/-- Two places have the same innermost block exactly when they stand in the same blocks. -/
theorem innermost_congr_iff {t : Text} {k m : Nat} :
    (∀ o c, Innermost t k o c ↔ Innermost t m o c) ↔
      ∀ o c, IsBlock t o c → (o < k ∧ k < c ↔ o < m ∧ m < c) := by
  have hshared {k m : Nat} (hall : ∀ o c, Innermost t k o c ↔ Innermost t m o c) {o c : Nat}
      (h : IsBlock t o c) : o < k ∧ k < c → o < m ∧ m < c := by
    rintro ⟨hbefore, hbehind⟩
    obtain ⟨o', c', hinner⟩ := h.exists_innermost hbefore hbehind
    obtain ⟨hle, hle'⟩ := hinner.within h hbefore hbehind
    have hother := (hall o' c').1 hinner
    exact ⟨Nat.lt_of_le_of_lt hle hother.before, Nat.lt_of_lt_of_le hother.behind hle'⟩
  have hmoved {k m : Nat} (hall : ∀ o c, IsBlock t o c → (o < k ∧ k < c ↔ o < m ∧ m < c))
      {o c : Nat} (h : Innermost t k o c) : Innermost t m o c := by
    obtain ⟨hbefore, hbehind⟩ := (hall o c h.block).1 ⟨h.before, h.behind⟩
    refine ⟨h.block, hbefore, hbehind, fun o' c' hblock hlt hlt' => ?_⟩
    obtain ⟨hlt, hlt'⟩ := (hall o' c' hblock).2 ⟨hlt, hlt'⟩
    exact h.last o' c' hblock hlt hlt'
  constructor
  · intro hall o c h
    exact ⟨hshared hall h, hshared (fun o c => (hall o c).symm) h⟩
  · intro hall o c
    exact ⟨hmoved hall, hmoved fun o c h => (hall o c h).symm⟩

/-! ## Lines that are put in behind a line -/

section BehindLine

variable {t m code : Text} {q : Nat} (hfeed : (q, '\n') ∈ scan t 0) (hm : Passes m code)
  (hinert : Inert ('\n' :: (m ++ t.drop (q + 1))))

include hfeed hm hinert

/-- A scan meets the same code up to the end of the line, then that of the lines put in, and then
the old code again. -/
theorem exists_scan_behindLine :
    ∃ first inner, (∀ place ∈ first, place.1 ≤ q) ∧ scan t 0 = first ++ scan t (q + 1) ∧
      scan (t.take (q + 1) ++ (m ++ t.drop (q + 1))) 0 =
        first ++ scan (t.take (q + 1) ++ (m ++ t.drop (q + 1))) (q + 1) ∧
      inner.map Prod.snd = code ∧
      scan (t.take (q + 1) ++ (m ++ t.drop (q + 1))) (q + 1) =
        inner ++ shift m.length (scan t (q + 1)) := by
  obtain ⟨hlt, hq⟩ := List.getElem?_eq_some_iff.1 (getElem?_of_mem_scan hfeed)
  have hlength : (t.take (q + 1)).length = q + 1 := List.length_take_of_le hlt
  have hout : t.take (q + 1) ++ (m ++ t.drop (q + 1)) =
      t.take q ++ '\n' :: (m ++ t.drop (q + 1)) := by
    rw [List.take_succ_eq_append_getElem hlt, hq, List.append_assoc]
    rfl
  obtain ⟨places, hplaces, hscan, hscan'⟩ := scan_take_append hfeed (fun _ => rfl) hinert
  rw [← hout] at hscan'
  obtain ⟨inner, hcode, -, hpasses⟩ := hm (q + 1) (t.drop (q + 1))
  have hfeed' : (t.take (q + 1) ++ (m ++ t.drop (q + 1)))[q]? = some '\n' := by
    rw [List.getElem?_append_left (by omega), List.getElem?_take_of_lt (Nat.lt_succ_self q),
      getElem?_of_mem_scan hfeed]
  have hplain : literalLength ((t.take (q + 1) ++ (m ++ t.drop (q + 1))).drop q) = 0 := by
    obtain ⟨hlt', hq'⟩ := List.getElem?_eq_some_iff.1 hfeed'
    rw [List.drop_eq_getElem_cons hlt', hq']
    rfl
  refine ⟨places ++ [(q, '\n')], inner, ?_, ?_, ?_, hcode, ?_⟩
  · rw [List.forall_mem_append, List.forall_mem_singleton]
    exact ⟨fun place hplace => Nat.le_of_lt (hplaces place hplace), Nat.le_refl q⟩
  · rw [hscan, scan_eq_cons_of_mem hfeed, List.append_assoc]
    rfl
  · rw [hscan', scan_eq_cons hfeed' hplain, List.append_assoc]
    rfl
  · rw [scan, List.drop_left' hlength, hpasses, Nat.add_comm (q + 1), scanFrom_add]
    rfl

/-- Up to the end of the line nothing is put in that opens or closes anything. -/
theorem opener_behindLine_iff {o : Nat} (ho : o ≤ q) :
    (o, '\x7b') ∈ scan (t.take (q + 1) ++ (m ++ t.drop (q + 1))) 0 ↔ (o, '\x7b') ∈ scan t 0 := by
  obtain ⟨first, inner, -, hscan, hscan', -, -⟩ := exists_scan_behindLine hfeed hm hinert
  have hbefore {t : Text} : (o, '\x7b') ∉ scan t (q + 1) := fun h =>
    Nat.not_lt.2 ho (le_of_mem_scan h)
  rw [hscan, hscan', List.mem_append, List.mem_append, or_iff_left hbefore, or_iff_left hbefore]

variable (hcode : Balanced '\x7b' '\x7d' code)

include hcode

/-- A block that opens before the end of the line keeps its closer, which moves with what stands
behind the line. -/
theorem matchingCloser_behindLine {o : Nat} (ho : (o, '\x7b') ∈ scan t 0) (hle : o ≤ q) :
    matchingCloser (t.take (q + 1) ++ (m ++ t.drop (q + 1))) o =
      (matchingCloser t o).map fun c => if c ≤ q then c else m.length + c := by
  obtain ⟨first, inner, hfirst, hscan, hscan', hinner, hbehind⟩ :=
    exists_scan_behindLine hfeed hm hinert
  have ho' := (opener_behindLine_iff hfeed hm hinert hle).2 ho
  have hmem : (o, '\x7b') ∈ first := by
    rw [hscan] at ho
    exact (List.mem_append.1 ho).resolve_right fun h => Nat.not_lt.2 hle (le_of_mem_scan h)
  obtain ⟨before, after, rfl⟩ := List.append_of_mem hmem
  rw [List.append_assoc, List.cons_append] at hscan hscan'
  rw [matchingCloser_eq (getElem?_of_mem_scan ho') rfl, scan_succ_of_split hscan', hbehind,
    matchingCloser_eq (getElem?_of_mem_scan ho) rfl, scan_succ_of_split hscan]
  cases hopen : openAfter '\x7b' '\x7d' 1 (after.map Prod.snd) with
  | none =>
      -- The block closes before the end of the line.
      obtain ⟨c, hc, hclose⟩ := exists_closeAmong hopen
      obtain ⟨place, hplace, rfl⟩ := List.mem_map.1 hc
      rw [hclose, hclose, Option.map_some, if_pos (hfirst place (by simp [hplace]))]
  | some left =>
      obtain ⟨more, rfl⟩ := Nat.exists_eq_add_of_le (one_le_of_openAfter (Nat.le_refl 1) hopen)
      have hkept : openAfter '\x7b' '\x7d' (1 + more) (inner.map Prod.snd) = some (1 + more) := by
        rw [hinner]
        exact openAfter_add (Nat.le_refl 1) ((balanced_iff (by decide)).1 hcode) more
      rw [closeAmong_append hopen, closeAmong_append hopen, closeAmong_append hkept,
        closeAmong_shift]
      cases hclose : closeAmong '\x7b' '\x7d' (1 + more) (scan t (q + 1)) with
      | none => rfl
      | some c =>
          obtain ⟨place, hplace, rfl⟩ := List.mem_map.1 (mem_of_closeAmong hclose)
          have hlt : q < place.1 := le_of_mem_scan hplace
          rw [Option.map_some, Option.map_some, if_neg (Nat.not_le.2 hlt)]

/-- A place of the lines put in, with no opening brace before it in them, has the innermost block of
a place before exactly when every block that has one end between the latter and the end of the line
has both ends there. -/
theorem innermost_behindLine_iff {s h : Nat} (hs : s ≤ q) (hbrace : t[s]? ≠ some '\x7b')
    (hh : q < h) (hle : h ≤ q + m.length)
    (hfirst : ∀ o, (t.take (q + 1) ++ (m ++ t.drop (q + 1)))[o]? = some '\x7b' → q < o → h ≤ o) :
    (∀ o c, Innermost (t.take (q + 1) ++ (m ++ t.drop (q + 1))) s o c ↔
        Innermost (t.take (q + 1) ++ (m ++ t.drop (q + 1))) h o c) ↔
      ∀ o c, IsBlock t o c → (s < o ∧ o ≤ q ↔ s < c ∧ c ≤ q) := by
  have hcloser {o : Nat} := @matchingCloser_behindLine t m code q hfeed hm hinert hcode o
  have hopener {o : Nat} := @opener_behindLine_iff t m code q hfeed hm hinert o
  rw [innermost_congr_iff]
  constructor
  · intro hall o c hblock
    have hlt := hblock.lt
    have hne : o ≠ s := fun heq => hbrace (heq ▸ hblock.opener)
    rcases Nat.lt_or_ge q o with hbehind | hbefore
    · omega
    have hclose := hcloser hblock.isCode hbefore
    rw [hblock.closes, Option.map_some] at hclose
    have hsame := hall o _ ⟨(hopener hbefore).2 hblock.isCode, hclose⟩
    split at hsame <;> omega
  · intro hall o c hblock
    rcases Nat.lt_or_ge q o with hbehind | hbefore
    · have hstart := hfirst o hblock.opener hbehind
      omega
    have hcode' := (hopener hbefore).1 hblock.isCode
    have hclose := hblock.closes
    rw [hcloser hcode' hbefore] at hclose
    obtain ⟨close, hold, rfl⟩ := Option.map_eq_some_iff.1 hclose
    have hsame := hall o close ⟨hcode', hold⟩
    have hlt := (IsBlock.mk hcode' hold).lt
    have hne : o ≠ s := fun heq => hbrace (heq ▸ getElem?_of_mem_scan hcode')
    split <;> omega

end BehindLine

end BundleHook.Code
