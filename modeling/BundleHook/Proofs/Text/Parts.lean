import BundleHook.Text.Blank

/-!
# Parts of a text

A text is what its parts make up with a mark between them, and parts without the mark are found
again. What occurs in a text without the mark occurs in one of the parts.
-/

namespace BundleHook.Text

theorem take_append_slice {t : Text} {start stop : Nat} (h : start ≤ stop) :
    t.take start ++ slice t start stop = t.take stop := by
  have hprefix : (t.take stop).take start = t.take start := by
    rw [List.take_take, Nat.min_eq_left h]
  rw [slice, ← hprefix, List.take_append_drop]

theorem take_slice_drop {t : Text} {start stop : Nat} (h : start ≤ stop) :
    t.take start ++ slice t start stop ++ t.drop stop = t := by
  rw [take_append_slice h, List.take_append_drop]

theorem slice_append_drop {t : Text} {start stop : Nat} (h : start ≤ stop) :
    slice t start stop ++ t.drop stop = t.drop start := by
  have hwhole := take_slice_drop (t := t) h
  rw [List.append_assoc] at hwhole
  exact List.append_cancel_left (hwhole.trans (List.take_append_drop start t).symm)

theorem slice_succ {t : Text} {start stop : Nat} (h : start ≤ stop) (hlt : stop < t.length) :
    slice t start (stop + 1) = slice t start stop ++ [t[stop]] := by
  rw [slice, slice, List.take_add_one, List.getElem?_eq_getElem hlt, Option.toList_some,
    List.drop_append_of_le_length]
  rwa [List.length_take_of_le (Nat.le_of_lt hlt)]

theorem slice_append_slice {t : Text} {start middle stop : Nat} (hstart : start ≤ middle)
    (hstop : middle ≤ stop) (hlength : middle ≤ t.length) :
    slice t start middle ++ slice t middle stop = slice t start stop := by
  rw [slice, ← List.drop_append_of_le_length, take_append_slice hstop, slice]
  rwa [List.length_take_of_le hlength]

theorem mem_slice_of_getElem? {t : Text} {start k stop : Nat} {c : Char} (hc : t[k]? = some c)
    (hstart : start ≤ k) (hstop : k < stop) : c ∈ slice t start stop := by
  rw [slice, List.mem_iff_getElem?]
  refine ⟨k - start, ?_⟩
  rw [List.getElem?_drop, Nat.add_sub_cancel' hstart, List.getElem?_take_of_lt hstop, hc]

theorem splitOn_of_not_mem {mark : Char} {t : Text} (h : mark ∉ t) : splitOn mark t = [t] := by
  induction t with
  | nil => rfl
  | cons c t ih =>
      have hne : c ≠ mark := fun heq => h (heq ▸ List.mem_cons_self)
      rw [splitOn, if_neg hne, ih fun hc => h (List.mem_cons_of_mem c hc)]

theorem splitOn_append_cons {mark : Char} {part : Text} (h : mark ∉ part) (rest : Text) :
    splitOn mark (part ++ mark :: rest) = part :: splitOn mark rest := by
  induction part with
  | nil => simp [splitOn]
  | cons c part ih =>
      have hne : c ≠ mark := fun heq => h (heq ▸ List.mem_cons_self)
      rw [List.cons_append, splitOn, if_neg hne, ih fun hc => h (List.mem_cons_of_mem c hc)]

theorem join_cons {glue part : Text} {parts : List Text} (h : parts ≠ []) :
    join glue (part :: parts) = part ++ glue ++ join glue parts := by
  cases parts with
  | nil => exact absurd rfl h
  | cons next others => rfl

theorem join_append {glue : Text} {parts others : List Text} (hparts : parts ≠ [])
    (hothers : others ≠ []) :
    join glue (parts ++ others) = join glue parts ++ glue ++ join glue others := by
  induction parts with
  | nil => exact absurd rfl hparts
  | cons part parts ih =>
      by_cases hnil : parts = []
      · rw [hnil, List.singleton_append, join_cons hothers]
        rfl
      · rw [List.cons_append, join_cons (by simp [hnil]), join_cons hnil, ih hnil]
        simp

theorem splitOn_join {mark : Char} {parts : List Text} (hne : parts ≠ [])
    (hclean : ∀ part ∈ parts, mark ∉ part) : splitOn mark (join [mark] parts) = parts := by
  induction parts with
  | nil => exact absurd rfl hne
  | cons part parts ih =>
      have hpart := hclean part List.mem_cons_self
      cases parts with
      | nil => exact splitOn_of_not_mem hpart
      | cons next others =>
          have hrest := ih (List.cons_ne_nil next others)
            fun p hp => hclean p (List.mem_cons_of_mem part hp)
          rw [join_cons (List.cons_ne_nil next others), List.append_assoc, List.singleton_append,
            splitOn_append_cons hpart, hrest]

theorem mem_join {c : Char} {glue : Text} {parts : List Text} (h : c ∈ join glue parts) :
    c ∈ glue ∨ ∃ part ∈ parts, c ∈ part := by
  induction parts with
  | nil => cases h
  | cons part parts ih =>
      by_cases hnil : parts = []
      · subst hnil
        exact .inr ⟨part, List.mem_cons_self, h⟩
      rw [join_cons hnil] at h
      rcases List.mem_append.1 h with hfirst | hrest
      · rcases List.mem_append.1 hfirst with hpart | hglue
        · exact .inr ⟨part, List.mem_cons_self, hpart⟩
        · exact .inl hglue
      · rcases ih hrest with hglue | ⟨other, hother, hc⟩
        · exact .inl hglue
        · exact .inr ⟨other, List.mem_cons_of_mem part hother, hc⟩

/-- A beginning of a text without the mark is a beginning of the first part. -/
theorem prefix_splitOn {mark : Char} {word t : Text} (hmark : mark ∉ word) (h : word <+: t) :
    ∃ part parts, splitOn mark t = part :: parts ∧ word <+: part := by
  induction t generalizing word with
  | nil => exact ⟨[], [], rfl, h⟩
  | cons c rest ih =>
      by_cases hc : c = mark
      · have hnil : word = [] := by
          cases word with
          | nil => rfl
          | cons d word =>
              obtain rfl : d = c := (List.cons_prefix_cons.1 h).1
              exact absurd (hc ▸ List.mem_cons_self) hmark
        subst hnil
        exact ⟨[], splitOn mark rest, by rw [splitOn, if_pos hc], List.nil_prefix⟩
      cases word with
      | nil =>
          obtain ⟨part, parts, hsplit, -⟩ := ih List.not_mem_nil List.nil_prefix
          exact ⟨c :: part, parts, by rw [splitOn, if_neg hc, hsplit], List.nil_prefix⟩
      | cons d word =>
          obtain ⟨rfl, htail⟩ := List.cons_prefix_cons.1 h
          obtain ⟨part, parts, hsplit, hprefix⟩ :=
            ih (fun hmem => hmark (List.mem_cons_of_mem d hmem)) htail
          exact ⟨d :: part, parts, by rw [splitOn, if_neg hc, hsplit],
            List.cons_prefix_cons.2 ⟨rfl, hprefix⟩⟩

theorem has_iff {word t : Text} : has word t = true ↔ word <:+: t := by
  induction t with
  | nil => simp [has]
  | cons c rest ih =>
      rw [has, Bool.or_eq_true, ih, List.isPrefixOf_iff_prefix, List.infix_cons_iff]

/-- What occurs without the mark occurs in one of the parts. -/
theorem infix_splitOn {mark : Char} {word t : Text} (hmark : mark ∉ word) (h : word <:+: t) :
    ∃ part ∈ splitOn mark t, word <:+: part := by
  induction t with
  | nil => exact ⟨[], List.mem_singleton.2 rfl, h⟩
  | cons c rest ih =>
      rcases List.infix_cons_iff.1 h with hprefix | hlater
      · obtain ⟨part, parts, hsplit, hpart⟩ := prefix_splitOn hmark hprefix
        exact ⟨part, by rw [hsplit]; exact List.mem_cons_self, hpart.isInfix⟩
      · obtain ⟨part, hpart, hword⟩ := ih hlater
        by_cases hc : c = mark
        · refine ⟨part, ?_, hword⟩
          rw [splitOn, if_pos hc]
          exact List.mem_cons_of_mem _ hpart
        · rw [splitOn, if_neg hc]
          cases hsplit : splitOn mark rest with
          | nil => exact absurd hsplit (splitOn_ne_nil mark rest)
          | cons first others =>
              rw [hsplit] at hpart
              rcases List.mem_cons.1 hpart with rfl | hother
              · exact ⟨c :: part, List.mem_cons_self,
                  hword.trans (List.suffix_cons c part).isInfix⟩
              · exact ⟨part, List.mem_cons_of_mem _ hother, hword⟩

end BundleHook.Text
