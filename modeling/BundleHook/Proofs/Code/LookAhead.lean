import Mathlib.Data.List.Induction
import BundleHook.Proofs.Code.Scan
import BundleHook.Proofs.Text.Parts

/-!
# How far a scan looks ahead

Whether a character is code depends on what stands before it, and only little on what stands behind:
a literal or a comment that ends before a place ends there whatever stands behind the place, unless
that completes a mark or a character literal. So a scan up to a place is the same for all texts
behind it that complete nothing.

* `Inert` — texts that complete nothing before them;
* `literalLength_append` — literals that end before a place;
* `scan_take_append_of_le` — the scan of a text with another end.
-/

namespace BundleHook.Code

/-! ## Literals that end before a place -/

/-- The text completes nothing that stands before it: no mark of two characters or more, and no
character literal. -/
structure Inert (t : Text) : Prop where
  head : ∀ c, t.head? = some c → c ≠ '/' ∧ c ≠ '*' ∧ c ≠ '"'
  noApostrophe : '\x27' ∉ t.take characterRoom

theorem Inert.of_append {w rest : Text} (hlength : characterRoom ≤ w.length) (hw : '\x27' ∉ w)
    (hhead : ∀ c, w.head? = some c → c ≠ '/' ∧ c ≠ '*' ∧ c ≠ '"') : Inert (w ++ rest) where
  head c hc := by
    obtain ⟨d, w, rfl⟩ := List.exists_cons_of_length_pos (Nat.lt_of_lt_of_le (by decide) hlength)
    exact hhead c hc
  noApostrophe hmem := by
    rw [List.take_append_of_le_length hlength] at hmem
    exact hw (List.mem_of_mem_take hmem)

theorem Inert.cons {c : Char} {t : Text} (h : Inert t) (hhead : c ≠ '/' ∧ c ≠ '*' ∧ c ≠ '"')
    (hapostrophe : c ≠ '\x27') : Inert (c :: t) where
  head d hd := Option.some.inj hd ▸ hhead
  noApostrophe hmem := by
    rw [characterRoom, List.take_succ_cons] at hmem
    rcases List.mem_cons.1 hmem with heq | hmem
    · exact hapostrophe heq.symm
    · exact h.noApostrophe (List.take_subset_take_left _ (by decide) hmem)

theorem lengthThrough_spec (mark t : Text) :
    lengthThrough mark t = t.length ∨ mark.length ≤ lengthThrough mark t := by
  induction t with
  | nil => exact .inl rfl
  | cons c rest ih =>
      rw [lengthThrough, List.length_cons]
      split
      · exact .inr (Nat.le_refl _)
      · omega

section Tails

variable {c : Char}

theorem stringTail_cons (hc : c ≠ '\\') (rest : Text) :
    stringTail (c :: rest) = if c = '"' ∨ c = '\n' then 1 else stringTail rest + 1 := by
  rw [stringTail]
  · simp only [Bool.or_eq_true, beq_iff_eq]
  · exact fun h => absurd h hc
  · exact fun _ _ h => absurd h hc

theorem stringTail_pos {t : Text} (h : t ≠ []) : 0 < stringTail t := by
  fun_cases stringTail t with
  | case1 => exact absurd rfl h
  | case2 | case3 | case4 | case5 => exact Nat.succ_pos _

theorem characterTail_cons (hc : c ≠ '\\') (room : Nat) (rest : Text) :
    characterTail (room + 1) (c :: rest) =
      if c = '\x27' then some 1
      else if c = '\n' then none
      else (characterTail room rest).map (· + 1) := by
  rw [characterTail]
  · simp only [beq_iff_eq]
  · exact fun h => absurd h hc
  · exact fun _ _ h => absurd h hc

/-- A backslash takes the next character along. -/
theorem characterTail_backslash (room : Nat) (t : Text) :
    characterTail (room + 1) ('\\' :: t) = (characterTail (room - 1) t.tail).map (· + 2) := by
  cases t with
  | nil => cases room - 1 <;> rfl
  | cons c rest => rfl

theorem characterTail_pos {room : Nat} {t : Text} {n : Nat} (h : characterTail room t = some n) :
    0 < n := by
  unfold characterTail at h
  split at h
  · cases h
  · cases h
  · cases h
  · obtain ⟨m, -, rfl⟩ := Option.map_eq_some_iff.1 h
    exact Nat.succ_pos _
  · split at h
    · exact Option.some.inj h ▸ Nat.one_pos
    · split at h
      · cases h
      · obtain ⟨m, -, rfl⟩ := Option.map_eq_some_iff.1 h
        exact Nat.succ_pos _

theorem not_mem_take_tail {d : Char} {n : Nat} {t : Text} (h : d ∉ t.take n) :
    d ∉ t.tail.take (n - 1) := by
  cases t with
  | nil => simp
  | cons c rest =>
      cases n with
      | zero => simp
      | succ n =>
          rw [List.take_succ_cons] at h
          exact fun hmem => h (List.mem_cons_of_mem _ hmem)

/-- Without an apostrophe in its room no character literal closes. -/
theorem characterTail_eq_none {room : Nat} {t : Text} (h : '\x27' ∉ t.take room) :
    characterTail room t = none := by
  induction t using List.twoStepInduction generalizing room with
  | nil => cases room <;> rfl
  | singleton c =>
      cases room with
      | zero => rfl
      | succ room =>
          by_cases hc : c = '\\'
          · subst hc; rfl
          · have hne : c ≠ '\x27' := fun heq => h (by simp [heq])
            rw [characterTail_cons hc, if_neg hne]
            cases room <;> simp [characterTail]
  | cons_cons c d rest ih ihd =>
      cases room with
      | zero => rfl
      | succ room =>
          rw [List.take_succ_cons] at h
          obtain ⟨hne, hlater⟩ := not_or.1 (mt List.mem_cons.2 h)
          by_cases hc : c = '\\'
          · subst hc
            rw [characterTail, ih (not_mem_take_tail hlater), Option.map_none]
          · rw [characterTail_cons hc, if_neg (Ne.symm hne), ihd d hlater, Option.map_none, ite_self]

/-- A character literal that closes before a place closes there, and one that does not close is not
closed by a text without apostrophes. -/
theorem characterTail_append {lead behind other : Text} {room : Nat}
    (hother : '\x27' ∉ other.take room)
    (h : ∀ n, characterTail room (lead ++ behind) = some n → n ≤ lead.length) :
    characterTail room (lead ++ other) = characterTail room (lead ++ behind) := by
  have hnil {room : Nat} (hother : '\x27' ∉ other.take room)
      (h : ∀ n, characterTail room behind = some n → n ≤ 0) :
      characterTail room other = characterTail room behind := by
    rw [characterTail_eq_none hother]
    refine (Option.eq_none_iff_forall_ne_some.2 fun n hn => ?_).symm
    exact absurd (characterTail_pos hn) (Nat.not_lt.2 (h n hn))
  have hfewer {room less : Nat} (hother : '\x27' ∉ other.take room) (hle : less ≤ room) :
      '\x27' ∉ other.take less :=
    fun hmem => hother (List.take_subset_take_left _ hle hmem)
  have hstep {c : Char} {room : Nat} {rest : Text} (hc : c ≠ '\\')
      (ih : (∀ n, characterTail room (rest ++ behind) = some n → n ≤ rest.length) →
        characterTail room (rest ++ other) = characterTail room (rest ++ behind))
      (h : ∀ n, characterTail (room + 1) (c :: (rest ++ behind)) = some n → n ≤ rest.length + 1) :
      characterTail (room + 1) (c :: (rest ++ other)) =
        characterTail (room + 1) (c :: (rest ++ behind)) := by
    rw [characterTail_cons hc, characterTail_cons hc]
    rw [characterTail_cons hc] at h
    split
    · rfl
    · next hapostrophe =>
      rw [if_neg hapostrophe] at h
      split
      · rfl
      · next hfeed =>
        rw [if_neg hfeed] at h
        rw [ih fun n hn => by simpa using h (n + 1) (by rw [hn, Option.map_some])]
  induction lead using List.twoStepInduction generalizing room with
  | nil => exact hnil hother h
  | singleton c =>
      cases room with
      | zero => rfl
      | succ room =>
          by_cases hc : c = '\\'
          · -- A backslash takes the first character behind it along.
            subst hc
            rw [List.singleton_append, characterTail_backslash] at h ⊢
            rw [List.singleton_append, characterTail_backslash,
              characterTail_eq_none (not_mem_take_tail (hfewer hother (by omega))), Option.map_none]
            refine (Option.eq_none_iff_forall_ne_some.2 fun n hn => ?_).symm
            obtain ⟨m, hm, rfl⟩ := Option.map_eq_some_iff.1 hn
            exact absurd (h _ hn) (by simp)
          · exact hstep hc (hnil (hfewer hother (Nat.le_succ room))) h
  | cons_cons c d rest ih ihd =>
      cases room with
      | zero => rfl
      | succ room =>
          by_cases hc : c = '\\'
          · subst hc
            simp only [List.cons_append, characterTail] at h ⊢
            rw [ih (hfewer hother (by omega))]
            intro n hn
            simpa using h (n + 2) (by rw [hn, Option.map_some])
          · exact hstep hc (ihd d (hfewer hother (Nat.le_succ room))) h

end Tails

theorem takeWhile_append_of_le {p : Char → Bool} {lead behind other : Text} {d : Char}
    (hd : behind.head? = some d) (hother : p d = false → other.head? = some d)
    (h : ((lead ++ behind).takeWhile p).length ≤ lead.length) :
    (lead ++ other).takeWhile p = (lead ++ behind).takeWhile p := by
  obtain ⟨rest, rfl⟩ := List.head?_eq_some_iff.1 hd
  rw [List.takeWhile_append] at h ⊢
  rw [List.takeWhile_append]
  split
  · next hall =>
    cases hp : p d with
    | true =>
        rw [if_pos hall, List.takeWhile_cons_of_pos hp, List.length_append, List.length_cons] at h
        omega
    | false =>
        obtain ⟨others, rfl⟩ := List.head?_eq_some_iff.1 (hother hp)
        rw [List.takeWhile_cons_of_neg (by simp [hp]), List.takeWhile_cons_of_neg (by simp [hp])]
  · rfl

section Ends

variable {lead behind : Text} (hbehind : behind ≠ [])

include hbehind

theorem lengthThrough_append {mark : Text} (hmark : mark ≠ [])
    (h : lengthThrough mark (lead ++ behind) ≤ lead.length) (other : Text) :
    lengthThrough mark (lead ++ other) = lengthThrough mark (lead ++ behind) := by
  have hpos := List.length_pos_iff.2 hbehind
  have hmarkPos := List.length_pos_iff.2 hmark
  -- The mark ends before the place, so that it is found there.
  have hfound {t : Text} (h : lengthThrough mark (t ++ behind) ≤ t.length) :
      mark.length ≤ t.length := by
    have hspec := lengthThrough_spec mark (t ++ behind)
    rw [List.length_append] at hspec
    omega
  induction lead with
  | nil => exact absurd (hfound h) (by simpa using hmark)
  | cons c lead ih =>
      have hle := hfound h
      have hprefix (t : Text) : mark <+: c :: (lead ++ t) ↔ mark <+: c :: lead :=
        ⟨fun hp => List.prefix_of_prefix_length_le hp (List.prefix_append (c :: lead) t) hle,
          List.prefix_append_of_prefix⟩
      simp only [List.cons_append, lengthThrough, List.isPrefixOf_iff_prefix, hprefix] at h ⊢
      split
      · rfl
      · next hnone =>
        rw [if_neg hnone] at h
        rw [ih (Nat.le_of_succ_le_succ h)]

theorem stringTail_append (h : stringTail (lead ++ behind) ≤ lead.length) (other : Text) :
    stringTail (lead ++ other) = stringTail (lead ++ behind) := by
  have hstep {c : Char} {rest : Text} (hc : c ≠ '\\')
      (ih : stringTail (rest ++ behind) ≤ rest.length →
        stringTail (rest ++ other) = stringTail (rest ++ behind))
      (h : stringTail (c :: (rest ++ behind)) ≤ rest.length + 1) :
      stringTail (c :: (rest ++ other)) = stringTail (c :: (rest ++ behind)) := by
    rw [stringTail_cons hc] at h ⊢
    rw [stringTail_cons hc]
    split
    · rfl
    · next hends =>
      rw [if_neg hends] at h
      rw [ih (by omega)]
  induction lead using List.twoStepInduction with
  | nil => exact absurd (stringTail_pos hbehind) (Nat.not_lt.2 h)
  | singleton c =>
      by_cases hc : c = '\\'
      · -- A backslash takes the first character behind it along.
        subst hc
        obtain ⟨d, rest, rfl⟩ := List.exists_cons_of_ne_nil hbehind
        simp only [List.singleton_append, stringTail, List.length_singleton] at h
        omega
      · exact hstep hc (fun h => absurd (stringTail_pos hbehind) (Nat.not_lt.2 h)) h
  | cons_cons c d rest ih ihd =>
      by_cases hc : c = '\\'
      · subst hc
        simp only [List.cons_append, stringTail, List.length_cons] at h ⊢
        rw [ih (by omega)]
      · exact hstep hc (ihd d) h

end Ends

section Heads

theorem literalLength_slash (t : Text) :
    literalLength ('/' :: t) =
      if t.head? = some '/' then ((t.drop 1).takeWhile (· != '\n')).length + 2
      else if t.head? = some '*' then lengthThrough ['*', '/'] (t.drop 1) + 2
      else 0 := by
  cases t with
  | nil => rfl
  | cons c rest =>
      simp only [List.head?_cons, Option.some.injEq, List.drop_one, List.tail_cons]
      split
      · next hc => subst hc; rfl
      · next hline =>
        split
        · next hc => subst hc; rfl
        · next hblock =>
          unfold literalLength
          split <;> simp_all

theorem literalLength_quote (t : Text) :
    literalLength ('"' :: t) =
      if ['"', '"'] <+: t then lengthThrough ['"', '"', '"'] (t.drop 2) + 3
      else stringTail t + 1 := by
  split
  · next hquotes =>
    obtain ⟨rest, rfl⟩ := hquotes
    rfl
  · next hquotes =>
    unfold literalLength
    split <;> simp_all

theorem literalLength_apostrophe (t : Text) :
    literalLength ('\x27' :: t) = (characterTail characterRoom t).getD 0 + 1 := rfl

/-- Characters that begin no literal and no comment. -/
theorem literalLength_cons {c : Char} (hslash : c ≠ '/') (hquote : c ≠ '"') (hapostrophe : c ≠ '\x27')
    (t : Text) : literalLength (c :: t) = 0 := by
  unfold literalLength
  split <;> simp_all

end Heads

/-- A literal that ends before a place ends there whatever stands behind the place, if that goes on
with a line feed where there was one. -/
theorem literalLength_append {lead behind other : Text} {d : Char} (hlead : lead ≠ [])
    (hd : behind.head? = some d) (hfeed : d = '\n' → other.head? = some '\n')
    (hother : Inert other)
    (h : literalLength (lead ++ behind) ≤ lead.length) :
    literalLength (lead ++ other) = literalLength (lead ++ behind) := by
  obtain ⟨c, rest, rfl⟩ := List.exists_cons_of_ne_nil hlead
  have hbehind : behind ≠ [] := by rintro rfl; cases hd
  simp only [List.cons_append, List.length_cons] at h ⊢
  by_cases hslash : c = '/'
  · subst hslash
    rw [literalLength_slash] at h ⊢
    rw [literalLength_slash]
    cases rest with
    | nil =>
        -- Nothing completes the mark of a comment.
        simp only [List.nil_append, hd, Option.some.injEq, List.length_nil] at h ⊢
        have hline : d ≠ '/' := fun heq => by rw [if_pos heq] at h; omega
        have hblock : d ≠ '*' := fun heq => by rw [if_neg hline, if_pos heq] at h; omega
        rw [if_neg hline, if_neg hblock, if_neg fun heq => (hother.head _ heq).1 rfl,
          if_neg fun heq => (hother.head _ heq).2.1 rfl]
    | cons c rest =>
        simp only [List.cons_append, List.head?_cons, List.drop_one, List.tail_cons,
          List.length_cons] at h ⊢
        split
        · next hline =>
          rw [if_pos hline] at h
          have hline : (d != '\n') = false → other.head? = some d := by
            rw [bne_eq_false_iff_eq]
            rintro rfl
            exact hfeed rfl
          rw [takeWhile_append_of_le hd hline (by omega)]
        · next hline =>
          rw [if_neg hline] at h
          split
          · next hblock =>
            rw [if_pos hblock] at h
            rw [lengthThrough_append hbehind (by decide) (by omega)]
          · rfl
  by_cases hquote : c = '"'
  · subst hquote
    rw [literalLength_quote] at h ⊢
    rw [literalLength_quote]
    have hpos := stringTail_pos hbehind
    -- Nothing but the text before the place makes the literal one of three quotes.
    have htriple : ['"', '"'] <+: rest ++ other ↔ ['"', '"'] <+: rest ++ behind := by
      match rest with
      | [] =>
          split at h
          · simp only [List.length_nil] at h
            omega
          · simp only [List.nil_append, List.length_nil] at h
            omega
      | [c] =>
          have hnone : ¬ ['"', '"'] <+: [c] ++ behind := by
            intro htriple
            rw [if_pos htriple] at h
            simp only [List.length_singleton] at h
            omega
          refine iff_of_false (fun htriple => ?_) hnone
          obtain ⟨-, behind', hother'⟩ := List.cons_prefix_cons.1 htriple
          exact (hother.head '"' (List.head?_eq_some_iff.2 ⟨behind', hother'.symm⟩)).2.2 rfl
      | c :: d :: rest => simp only [List.cons_append, List.cons_prefix_cons, List.nil_prefix]
    rw [if_congr htriple rfl rfl]
    split
    · next hquotes =>
      rw [if_pos hquotes] at h
      match rest with
      | [] | [_] =>
          simp only [List.length_nil, List.length_singleton] at h
          omega
      | _ :: _ :: rest =>
          simp only [List.cons_append, List.drop_succ_cons, List.drop_zero, List.length_cons] at h ⊢
          rw [lengthThrough_append hbehind (by decide) (by omega)]
    · next hquotes =>
      rw [if_neg hquotes] at h
      rw [stringTail_append hbehind (by omega)]
  by_cases hapostrophe : c = '\x27'
  · subst hapostrophe
    rw [literalLength_apostrophe] at h ⊢
    rw [literalLength_apostrophe, characterTail_append hother.noApostrophe]
    intro n hn
    rw [hn] at h
    exact Nat.le_of_succ_le_succ h
  · rw [literalLength_cons hslash hquote hapostrophe, literalLength_cons hslash hquote hapostrophe]

/-! ## Scans up to a place -/

theorem add_le_of_mem_scanFrom {index skip : Nat} {t : Text} {place : Nat × Char}
    (h : place ∈ scanFrom index skip t) : index + skip ≤ place.1 := by
  induction skip generalizing index t with
  | zero => exact le_of_mem_scanFrom h
  | succ skip ih =>
      cases t with
      | nil => cases h
      | cons c rest =>
          have hle : index + 1 + skip ≤ place.1 := ih h
          omega

/-- Up to a place that is code a scan is the same for all texts that complete nothing there or
behind. -/
theorem scanFrom_append {lead behind other : Text} {index skip n : Nat} {c d : Char}
    (hd : behind.head? = some d) (hfeed : d = '\n' → other.head? = some '\n')
    (hother : Inert other) (hn : n ≤ lead.length)
    (h : (index + n, c) ∈ scanFrom index skip (lead ++ behind)) :
    ∃ places, (∀ place ∈ places, place.1 < index + n) ∧
      scanFrom index skip (lead ++ behind) =
        places ++ scanFrom (index + n) 0 ((lead ++ behind).drop n) ∧
      scanFrom index skip (lead ++ other) =
        places ++ scanFrom (index + n) 0 ((lead ++ other).drop n) := by
  induction n generalizing lead index skip with
  | zero =>
      have hskip := add_le_of_mem_scanFrom h
      simp only at hskip
      obtain rfl : skip = 0 := by omega
      exact ⟨[], List.forall_mem_nil _, rfl, rfl⟩
  | succ n ih =>
      obtain ⟨first, lead, rfl⟩ := List.exists_cons_of_length_pos (Nat.lt_of_lt_of_le n.succ_pos hn)
      have hlater := Nat.le_of_succ_le_succ hn
      have hindex : index + (n + 1) = index + 1 + n := by omega
      rw [hindex] at h ⊢
      cases skip with
      | succ skip => exact ih hlater h
      | zero =>
          rcases hliteral : literalLength (first :: (lead ++ behind)) with _ | length
          · have hother' : literalLength (first :: (lead ++ other)) = 0 := by
              rw [← hliteral]
              exact literalLength_append (List.cons_ne_nil first lead) hd hfeed hother
                (by rw [List.cons_append, hliteral]; exact Nat.zero_le _)
            rw [List.cons_append, scanFrom_code hliteral] at h ⊢
            rw [List.cons_append, scanFrom_code hother']
            rcases List.mem_cons.1 h with heq | h
            · have hfirst := congrArg Prod.fst heq
              simp only at hfirst
              omega
            · obtain ⟨places, hplaces, hbehind, hscan⟩ := ih hlater h
              refine ⟨(index, first) :: places, List.forall_mem_cons.2 ⟨?_, hplaces⟩, ?_, ?_⟩
              · simp only
                omega
              · rw [hbehind, List.cons_append, List.drop_succ_cons]
              · rw [hscan, List.cons_append, List.drop_succ_cons]
          · rw [List.cons_append, scanFrom_literal hliteral] at h ⊢
            have hle := add_le_of_mem_scanFrom h
            simp only at hle
            have hother' : literalLength (first :: (lead ++ other)) = length + 1 := by
              rw [← hliteral]
              exact literalLength_append (List.cons_ne_nil first lead) hd hfeed hother
                (by rw [List.cons_append, hliteral, List.length_cons]; omega)
            rw [List.cons_append, scanFrom_literal hother']
            exact ih hlater h

section End

variable {t other : Text} {p : Nat} {d : Char}

open Text in
/-- Up to a place of code a scan is the same when the text gets another end there or behind. -/
theorem scan_take_append_of_le {i k : Nat} {c : Char} (hk : (k, c) ∈ scan t i) (hle : k ≤ p)
    (hd : t[p]? = some d) (hfeed : d = '\n' → other.head? = some '\n') (hother : Inert other) :
    ∃ places, (∀ place ∈ places, place.1 < k) ∧ scan t i = places ++ scan t k ∧
      scan (t.take p ++ other) i = places ++ scan (t.take p ++ other) k := by
  obtain ⟨n, rfl⟩ := Nat.exists_eq_add_of_le (le_of_mem_scan hk)
  obtain ⟨hlt, -⟩ := List.getElem?_eq_some_iff.1 hd
  have htake : (t.take p).length = p := List.length_take_of_le (Nat.le_of_lt hlt)
  have hlead : (slice t i p).length = p - i := by rw [slice, List.length_drop, htake]
  have hsplit : t.drop i = slice t i p ++ t.drop p := (slice_append_drop (by omega)).symm
  have hother' : (t.take p ++ other).drop i = slice t i p ++ other :=
    List.drop_append_of_le_length (by omega)
  unfold scan at hk ⊢
  rw [← List.drop_drop, ← List.drop_drop, hother', hsplit]
  rw [hsplit] at hk
  exact scanFrom_append (by rw [List.head?_drop, hd]) hfeed hother (by omega) hk

theorem scan_take_append {i : Nat} (hp : (p, d) ∈ scan t i)
    (hfeed : d = '\n' → other.head? = some '\n') (hother : Inert other) :
    ∃ places, (∀ place ∈ places, place.1 < p) ∧ scan t i = places ++ scan t p ∧
      scan (t.take p ++ other) i = places ++ scan (t.take p ++ other) p :=
  scan_take_append_of_le hp (Nat.le_refl p) (getElem?_of_mem_scan hp) hfeed hother

end End

end BundleHook.Code
