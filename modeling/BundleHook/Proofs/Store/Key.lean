import BundleHook.Proofs.Text.Parts
import BundleHook.Store.Basic

/-!
# Cleaned keys

Cleaning a key only takes characters out of it. It takes nothing out of a key, and the key is kept,
when the key neither begins with a slash nor has a pair of dots or a colon in it. As a single name a
key has no slash left.
-/

namespace BundleHook

namespace Text

theorem without_go_sublist (old : Text) (skip : Nat) (t : Text) :
    (without.go old skip t).Sublist t := by
  fun_induction without.go old skip t with
  | case1 => exact List.Sublist.refl []
  | case2 skip c rest ih => exact ih.cons c
  | case3 c rest _ ih => exact ih.cons c
  | case4 c rest _ ih => exact ih.cons_cons c

theorem without_sublist (old t : Text) : (without old t).Sublist t := without_go_sublist old 0 t

/-- Nothing is taken out of a text that what is to be taken out does not occur in. -/
theorem without_of_not_infix {old t : Text} (h : ¬old <:+: t) : without old t = t := by
  unfold without
  induction t with
  | nil => rfl
  | cons c rest ih =>
      have hhere : old.isPrefixOf (c :: rest) = false := by
        refine Bool.eq_false_iff.2 fun hprefix => h ?_
        exact (List.isPrefixOf_iff_prefix.1 hprefix).isInfix
      have hrest : ¬old <:+: rest :=
        fun hlater => h (hlater.trans (List.suffix_cons c rest).isInfix)
      rw [without.go, hhere, Bool.and_false, if_neg (by decide), ih hrest]

/-- Taking out what occurs in a text makes the text another one. -/
theorem not_infix_of_without_eq {old t : Text} (hold : old ≠ []) (h : without old t = t) :
    ¬old <:+: t := by
  unfold without at h
  induction t with
  | nil => exact fun hpresent => hold (List.infix_nil.1 hpresent)
  | cons c rest ih =>
      rw [without.go] at h
      split at h
      · have hlength := congrArg List.length h
        have hle := (without_go_sublist old (old.length - 1) rest).length_le
        rw [List.length_cons] at hlength
        omega
      · next hstarts =>
        intro hpresent
        rcases List.infix_cons_iff.1 hpresent with hprefix | hlater
        · refine hstarts ?_
          rw [Bool.and_eq_true, List.isPrefixOf_iff_prefix]
          exact ⟨by simpa using hold, hprefix⟩
        · exact ih (List.cons.inj h).2 hlater

/-- What has no mark in it is a beginning of a text exactly when it is one of what comes before the
mark. -/
theorem isPrefixOf_append_mark {mark : Char} {word : Text} (hmark : mark ∉ word)
    (part rest : Text) : word.isPrefixOf (part ++ mark :: rest) = word.isPrefixOf part := by
  rw [Bool.eq_iff_iff, List.isPrefixOf_iff_prefix, List.isPrefixOf_iff_prefix]
  refine ⟨fun h => ?_, fun h => h.trans (List.prefix_append part _)⟩
  by_cases hlength : word.length ≤ part.length
  · exact List.prefix_of_prefix_length_le h (List.prefix_append part _) hlength
  · have hlong : part ++ [mark] <+: part ++ mark :: rest := by simp
    have hin := List.prefix_of_prefix_length_le hlong h (by simp; omega)
    exact absurd (hin.subset (by simp)) hmark

theorem without_go_append_mark {mark : Char} {old : Text} (hmark : mark ∉ old) (hold : old ≠ [])
    (rest : Text) {skip : Nat} {part : Text} (hskip : skip ≤ part.length) :
    without.go old skip (part ++ mark :: rest) =
      without.go old skip part ++ mark :: without.go old 0 rest := by
  induction part generalizing skip with
  | nil =>
      obtain rfl := Nat.le_zero.1 hskip
      have hnone := isPrefixOf_append_mark hmark [] rest
      have hempty : old.isPrefixOf [] = false := by
        cases old with
        | nil => exact absurd rfl hold
        | cons c old => rfl
      rw [hempty, List.nil_append] at hnone
      simp only [List.nil_append, without.go, hnone, Bool.and_false, Bool.false_eq_true, if_false]
  | cons c part ih =>
      cases skip with
      | succ skip =>
          simp only [List.cons_append, without.go]
          exact ih (Nat.le_of_succ_le_succ hskip)
      | zero =>
          have hsame := isPrefixOf_append_mark hmark (c :: part) rest
          simp only [List.cons_append] at hsame
          simp only [List.cons_append, without.go, hsame]
          split
          · next hstarts =>
            have hprefix := List.isPrefixOf_iff_prefix.1 (Bool.and_eq_true_iff.1 hstarts).2
            have hlength := hprefix.length_le
            rw [List.length_cons] at hlength
            exact ih (by omega)
          · rw [ih (Nat.zero_le _), List.cons_append]

/-- What has no mark in it is taken out of the parts between the marks. -/
theorem without_join {mark : Char} {old : Text} (hmark : mark ∉ old) (hold : old ≠ [])
    (parts : List Text) :
    without old (join [mark] parts) = join [mark] (parts.map (without old)) := by
  induction parts with
  | nil => rfl
  | cons part parts ih =>
      by_cases hnil : parts = []
      · subst hnil
        rfl
      · rw [List.map_cons, join_cons hnil, join_cons (by simpa using hnil), ← ih,
          List.append_assoc, List.append_assoc]
        exact without_go_append_mark hmark hold _ (Nat.zero_le _)

end Text

namespace Path

theorem isAbsolute_of_not_mem {t : Text} (h : '/' ∉ t) : isAbsolute t = false := by
  cases t with
  | nil => rfl
  | cons c rest =>
      have hc : c ≠ '/' := fun heq => h (heq ▸ List.mem_cons_self)
      simp [isAbsolute, hc]

theorem ofText_of_not_mem {name : Text} (h : '/' ∉ name) (root : Path) :
    ofText root name = if staysPut name then root else root.child name := by
  unfold ofText namesOf startOf
  rw [Text.splitOn_of_not_mem h, isAbsolute_of_not_mem h, if_neg (by decide)]
  cases hstays : staysPut name <;> simp [hstays, child]

end Path

namespace Store

theorem cleanKey_sublist (key : Text) : (cleanKey key).Sublist key :=
  ((Text.without_sublist _ _).trans (Text.without_sublist _ _)).trans
    (List.dropWhile_sublist isSlash)

/-- Cleaning leaves the key as it is. -/
def IsKept (key : String) : Prop := cleanKey key.toList = key.toList

instance (key : String) : Decidable (IsKept key) := inferInstanceAs (Decidable (_ = _))

/-- A key is kept when it begins with no slash of either kind, and has neither a pair of dots nor a
colon in it. -/
theorem isKept_iff {key : String} :
    IsKept key ↔ (∀ c, key.toList.head? = some c → isSlash c = false) ∧
      ¬Path.upName <:+: key.toList ∧ ':' ∉ key.toList := by
  unfold IsKept
  generalize key.toList = t
  constructor
  · intro h
    -- Each of the three steps only takes characters out, so that none of them takes any.
    have hcolons := Text.without_sublist [':'] (Text.without Path.upName (t.dropWhile isSlash))
    have hdots := Text.without_sublist Path.upName (t.dropWhile isSlash)
    have hslashes := @List.dropWhile_sublist _ t isSlash
    have hlength : t.length ≤ (Text.without Path.upName (t.dropWhile isSlash)).length := by
      have hle := hcolons.length_le
      rwa [show Text.without [':'] (Text.without Path.upName (t.dropWhile isSlash)) = t from h]
        at hle
    have hstart : t.dropWhile isSlash = t :=
      hslashes.eq_of_length_le (Nat.le_trans hlength hdots.length_le)
    have hup : Text.without Path.upName t = t := by
      rw [hstart] at hdots hlength
      exact hdots.eq_of_length_le hlength
    rw [cleanKey, hstart, hup] at h
    refine ⟨fun c hc => ?_, Text.not_infix_of_without_eq (by decide) hup, fun hmem => ?_⟩
    · cases t with
      | nil => cases hc
      | cons first rest =>
          obtain rfl := Option.some.inj hc
          refine Bool.eq_false_iff.2 fun hslash => ?_
          have hle := (@List.dropWhile_sublist _ rest isSlash).length_le
          rw [List.dropWhile_cons, if_pos hslash] at hstart
          rw [hstart, List.length_cons] at hle
          omega
    · obtain ⟨before, behind, hsplit⟩ := List.append_of_mem hmem
      refine Text.not_infix_of_without_eq (List.cons_ne_nil _ _) h ⟨before, behind, ?_⟩
      rw [hsplit, List.append_assoc]
      rfl
  · rintro ⟨hhead, hup, hcolon⟩
    have hstart : t.dropWhile isSlash = t := by
      cases t with
      | nil => rfl
      | cons c rest => simp [hhead c rfl]
    have hno : ¬[':'] <:+: t := fun hpresent => hcolon (hpresent.subset List.mem_cons_self)
    rw [cleanKey, hstart, Text.without_of_not_infix hup, Text.without_of_not_infix hno]

theorem not_mem_cleanKey {c : Char} {key : Text} (h : c ∉ key) : c ∉ cleanKey key :=
  fun hmem => h ((cleanKey_sublist key).subset hmem)

theorem not_mem_flatKey (key : Text) : '/' ∉ flatKey key := by
  intro h
  obtain ⟨c, -, hc⟩ := List.mem_map.1 h
  split at hc
  · cases hc
  · next hslash =>
    subst hc
    exact hslash (by decide)

/-- The path that a key means before it is resolved. -/
def meantPath (store : Store) (key : String) : Path := Path.ofText store.root (cleanKey key.toList)

/-- The key as a single name. -/
def flatName (key : String) : Text := flatKey (cleanKey key.toList)

theorem pathOf_eq {store : Store} {t : Tree} {key : String} (hkey : '\x00' ∉ key.toList) :
    store.pathOf t key =
      match t.resolve (store.meantPath key) with
      | .error path => .error (.circle path)
      | .ok path =>
        if store.root.reaches path then .ok path
        else .ok (Path.ofText store.root (flatName key)) := by
  have hclean : '\x00' ∉ cleanKey key.toList := not_mem_cleanKey hkey
  unfold pathOf
  rw [if_neg (by simpa using hclean)]
  rfl

end Store

end BundleHook
