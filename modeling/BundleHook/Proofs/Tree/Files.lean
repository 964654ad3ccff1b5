import BundleHook.Tree.Change

/-!
# The files of a changed tree

Every change of a tree sets entries one by one, so that what a change does to the files is read off
`entry?_put`. Setting a file changes that file alone; making directories changes none.
-/

namespace BundleHook

namespace Path

theorem child_ne_top (p : Path) (name : Text) : p.child name ≠ top := by
  simp [child, top]

theorem eq_top_of_names_nil {p : Path} (h : p.names = []) : p = top := by
  cases p
  exact congrArg Path.mk h

theorem child_parent_name {p : Path} (h : p.names ≠ []) : p.parent.child p.name = p := by
  cases p with
  | mk names =>
      simp only [child, parent, name, mk.injEq]
      rw [List.getLast?_eq_some_getLast h]
      exact List.dropLast_concat_getLast h

end Path

namespace Tree

/-- What the regular file at a path holds. -/
def fileAt (t : Tree) (p : Path) : Option Contents :=
  match t.entry? p with
  | some (.file contents) => some contents
  | _ => none

theorem fileAt_eq_some {t : Tree} {p : Path} {contents : Contents} :
    t.fileAt p = some contents ↔ t.entry? p = some (.file contents) := by
  unfold fileAt
  split
  · next held hentry => simp [hentry]
  · next hno =>
    simp only [reduceCtorEq, false_iff]
    exact hno contents

@[simp] theorem entry?_top (t : Tree) : t.entry? .top = some .directory := by
  exact if_pos rfl

private theorem lookup_eq_some_iff {entries : List (Path × Entry)}
    (h : (entries.map Prod.fst).Nodup) {p : Path} {entry : Entry} :
    entries.lookup p = some entry ↔ (p, entry) ∈ entries := by
  induction entries with
  | nil => simp
  | cons head entries ih =>
      obtain ⟨q, old⟩ := head
      rw [List.map_cons, List.nodup_cons] at h
      rw [List.lookup_cons]
      by_cases hpq : p = q
      · subst hpq
        have hother (other : Entry) : (p, other) ∉ entries :=
          fun hmem => h.1 (List.mem_map.2 ⟨(p, other), hmem, rfl⟩)
        simp [hother, eq_comm]
      · simp [beq_false_of_ne hpq, ih h.2, hpq]

/-- Something stands at a path exactly when the path is among the entries. -/
theorem isSome_entry?_iff {t : Tree} {p : Path} (hp : p ≠ .top) :
    (t.entry? p).isSome = true ↔ ∃ entry, (p, entry) ∈ t.entries := by
  unfold entry?
  rw [if_neg hp, ← Option.not_isNone, Bool.not_eq_true', ← Bool.not_eq_true,
    Option.isNone_iff_eq_none, List.lookup_eq_none_iff]
  simp

/-- Where no path has a second place, what stands at a path is what the entries say. -/
theorem mem_entries_iff {t : Tree} (h : (t.entries.map Prod.fst).Nodup) {p : Path} (hp : p ≠ .top)
    {entry : Entry} : (p, entry) ∈ t.entries ↔ t.entry? p = some entry := by
  unfold entry?
  rw [if_neg hp, lookup_eq_some_iff h]

theorem ne_top_of_entry?_ne {t : Tree} {p : Path} (h : t.entry? p ≠ some .directory) :
    p ≠ .top := by
  rintro rfl
  exact h t.entry?_top

theorem ne_directory_of_free {t : Tree} {p : Path} (h : t.entry? p = none) :
    t.entry? p ≠ some .directory := by
  simp [h]

theorem ne_directory_of_file {t : Tree} {p : Path} {contents : Contents}
    (h : t.entry? p = some (.file contents)) : t.entry? p ≠ some .directory := by
  simp [h]

private theorem lookup_map_set (entries : List (Path × Entry)) (p q : Path) (entry : Entry) :
    (entries.map fun (r, old) => if r = p then (r, entry) else (r, old)).lookup q =
      if q = p then (entries.lookup p).map fun _ => entry else entries.lookup q := by
  induction entries with
  | nil => simp
  | cons head entries ih =>
      obtain ⟨r, old⟩ := head
      rw [List.map_cons]
      by_cases hrp : r = p
      · by_cases hq : q = r
        · subst hq hrp
          simp
        · have hqp : q ≠ p := fun heq => hq (heq.trans hrp.symm)
          simp only [if_pos hrp, List.lookup_cons, beq_false_of_ne hq, ih, if_neg hqp]
      · by_cases hq : q = r
        · simp only [if_neg hrp, List.lookup_cons, hq, beq_self_eq_true]
        · simp only [if_neg hrp, List.lookup_cons, beq_false_of_ne hq, ih,
            beq_false_of_ne (Ne.symm hrp)]

theorem lookup_put (t : Tree) (p q : Path) (entry : Entry) :
    (t.put p entry).entries.lookup q = if q = p then some entry else t.entries.lookup q := by
  unfold put
  split
  · next hthere =>
    obtain ⟨old, hold⟩ := Option.isSome_iff_exists.1 hthere
    rw [lookup_map_set, hold]
    rfl
  · next hfree =>
    have hnone : t.entries.lookup p = none := Option.not_isSome_iff_eq_none.1 hfree
    rw [List.lookup_append]
    by_cases hq : q = p
    · subst hq
      simp [hnone]
    · simp [hq, List.lookup_cons, beq_false_of_ne hq]

/-- Of two entries set at one path the second one counts. -/
theorem put_put (t : Tree) (p : Path) (entry other : Entry) :
    (t.put p entry).put p other = t.put p other := by
  have hthere : ((t.put p entry).entries.lookup p).isSome = true := by
    rw [lookup_put, if_pos rfl]
    rfl
  rw [put.eq_def (t.put p entry), if_pos hthere]
  unfold put
  split
  · simp only [List.map_map, Tree.mk.injEq]
    refine List.map_congr_left fun place _ => ?_
    simp only [Function.comp_apply]
    split <;> simp_all
  · next hfree =>
    have hnone : t.entries.lookup p = none := Option.not_isSome_iff_eq_none.1 hfree
    have hkept : ∀ place ∈ t.entries, place.1 ≠ p := fun place hplace heq => by
      have hdistinct := List.lookup_eq_none_iff.1 hnone place hplace
      simp [heq] at hdistinct
    simp only [List.map_append, List.map_singleton, if_true, Tree.mk.injEq]
    refine congrArg (· ++ _) ((List.map_congr_left fun place hplace => ?_).trans (List.map_id _))
    exact if_neg (hkept place hplace)

/-- Setting an entry takes no second place for its path. -/
theorem nodup_put {t : Tree} (h : (t.entries.map Prod.fst).Nodup) (p : Path) (entry : Entry) :
    ((t.put p entry).entries.map Prod.fst).Nodup := by
  unfold put
  split
  · have hkeys : (t.entries.map fun (q, old) => if q = p then (q, entry) else (q, old)).map
        Prod.fst = t.entries.map Prod.fst := by
      rw [List.map_map]
      refine List.map_congr_left fun pair _ => ?_
      simp only [Function.comp_apply]
      split <;> rfl
    rwa [hkeys]
  · next hfree =>
    have hnone : t.entries.lookup p = none := Option.not_isSome_iff_eq_none.1 hfree
    rw [List.map_append]
    refine List.nodup_append.2 ⟨h, by simp, ?_⟩
    rintro q hq _ hp rfl
    obtain rfl := List.mem_singleton.1 hp
    obtain ⟨pair, hpair, heq⟩ := List.mem_map.1 hq
    have hdistinct := List.lookup_eq_none_iff.1 hnone pair hpair
    simp [heq] at hdistinct

theorem entry?_put {p : Path} (hp : p ≠ .top) (t : Tree) (q : Path) (entry : Entry) :
    Tree.entry? (t.put p entry) q = if q = p then some entry else t.entry? q := by
  unfold entry?
  by_cases hq : q = .top
  · rw [if_pos hq, if_pos hq, if_neg (hq ▸ Ne.symm hp)]
  · rw [if_neg hq, if_neg hq, lookup_put]

theorem fileAt_put_file {p : Path} (hp : p ≠ .top) (t : Tree) (q : Path) (contents : Contents) :
    (t.put p (.file contents)).fileAt q = if q = p then some contents else t.fileAt q := by
  by_cases hq : q = p <;> simp [fileAt, entry?_put hp, hq]

end Tree

end BundleHook
