import BundleHook.PropertyList.Value
import BundleHook.Proofs.Entries

/-!
# Updated entries

Setting keys updates a dictionary: keys that are there keep their places, the others come behind
them in the order of the items, and every key that is set has its text.
-/

namespace BundleHook.PropertyList

variable {α : Type} {items : Items}

/-! ## Setting one key -/

theorem setEntry_cases (key : Text) (value : α) (entries : List (Text × α)) :
    (∃ before old behind, entries = before ++ (key, old) :: behind ∧ key ∉ before.map (·.1) ∧
      setEntry key value entries = before ++ (key, value) :: behind) ∨
    (key ∉ entries.map (·.1) ∧ setEntry key value entries = entries ++ [(key, value)]) := by
  induction entries with
  | nil => exact .inr ⟨List.not_mem_nil, rfl⟩
  | cons entry entries ih =>
      obtain ⟨known, old⟩ := entry
      rw [setEntry]
      by_cases hknown : known = key
      · subst hknown
        exact .inl ⟨[], old, entries, rfl, List.not_mem_nil, if_pos rfl⟩
      · rw [if_neg hknown]
        have hne : key ∉ [known] := by simpa using Ne.symm hknown
        rcases ih with ⟨before, old', behind, hentries, hbefore, hset⟩ | ⟨hkeys, hset⟩
        · refine .inl ⟨(known, old) :: before, old', behind, by rw [hentries]; rfl, ?_,
            by rw [hset]; rfl⟩
          simpa using ⟨Ne.symm hknown, by simpa using hbefore⟩
        · exact .inr ⟨by simpa using ⟨Ne.symm hknown, by simpa using hkeys⟩, by rw [hset]; rfl⟩

theorem keys_setEntry (key : Text) (value : α) (entries : List (Text × α)) :
    (setEntry key value entries).map (·.1) =
      entries.map (·.1) ++ if key ∈ entries.map (·.1) then [] else [key] := by
  rcases setEntry_cases key value entries with ⟨before, old, behind, rfl, -, hset⟩ | ⟨hkeys, hset⟩
  · simp [hset]
  · simp [hset, hkeys]

theorem nodup_setEntry {entries : List (Text × α)} (h : (entries.map (·.1)).Nodup) (key : Text)
    (value : α) : ((setEntry key value entries).map (·.1)).Nodup := by
  rw [keys_setEntry]
  split
  · simpa using h
  · next hkey => exact h.append (List.nodup_singleton key) (by simpa using hkey)

/-- Setting a key that comes last appends it. -/
theorem setEntry_of_notMem {entries : List (Text × α)} {key : Text}
    (h : key ∉ entries.map (·.1)) (value : α) :
    setEntry key value entries = entries ++ [(key, value)] := by
  rcases setEntry_cases key value entries with ⟨before, old, behind, rfl, -, -⟩ | ⟨-, hset⟩
  · exact absurd h (by simp)
  · exact hset

/-- Where no key occurs twice, a key that is there is set by changing its entry. -/
theorem setEntry_of_mem {entries : List (Text × α)} (hnodup : (entries.map (·.1)).Nodup)
    {key : Text} (h : key ∈ entries.map (·.1)) (value : α) :
    setEntry key value entries =
      entries.map fun entry => if entry.1 = key then (entry.1, value) else entry := by
  rcases setEntry_cases key value entries with ⟨before, old, behind, rfl, hbefore, hset⟩ | ⟨hkeys, -⟩
  · rw [List.map_append, List.map_cons] at hnodup
    have hbehind : key ∉ behind.map (·.1) :=
      (List.nodup_cons.1 (List.nodup_append.1 hnodup).2.1).1
    have hsame {others : List (Text × α)} (hothers : key ∉ others.map (·.1)) :
        others.map (fun entry => if entry.1 = key then (entry.1, value) else entry) = others :=
      (List.map_congr_left fun entry hentry =>
        if_neg fun heq => hothers (heq ▸ List.mem_map_of_mem hentry)).trans (List.map_id _)
    rw [hset, List.map_append, List.map_cons, hsame hbefore, hsame hbehind, if_pos rfl]
  · exact absurd h hkeys

/-- Setting a key to the value that it has changes nothing. -/
theorem setEntry_of_lookup {entries : List (Text × α)} {key : Text} {value : α}
    (h : entries.lookup key = some value) : setEntry key value entries = entries := by
  induction entries with
  | nil => cases h
  | cons entry entries ih =>
      obtain ⟨known, old⟩ := entry
      rw [setEntry]
      split
      · next hknown =>
        subst hknown
        rw [List.lookup_cons_self] at h
        rw [Option.some.inj h]
      · next hknown =>
        rw [List.lookup_cons, beq_eq_false_iff_ne.2 (Ne.symm hknown)] at h
        rw [ih h]

theorem mem_setEntry {entries : List (Text × α)} {key : Text} {value : α} {entry : Text × α}
    (h : entry ∈ setEntry key value entries) : entry ∈ entries ∨ entry = (key, value) := by
  rcases setEntry_cases key value entries with ⟨before, old, behind, rfl, -, hset⟩ | ⟨-, hset⟩
  · rw [hset] at h
    simp only [List.mem_append, List.mem_cons] at h ⊢
    tauto
  · rw [hset] at h
    simpa using h

/-! ## Setting all keys -/

theorem setAll_cons (item : Text × Text) (items : Items) (entries : List (Text × Value)) :
    setAll entries (item :: items) = setAll (setEntry item.1 (.text item.2) entries) items := rfl

theorem keys_setAll (hkeys : (items.map (·.1)).Nodup) (entries : List (Text × Value)) :
    (setAll entries items).map (·.1) =
      entries.map (·.1) ++ (items.map (·.1)).filter (· ∉ entries.map (·.1)) := by
  induction items generalizing entries with
  | nil => simp [setAll]
  | cons item items ih =>
      obtain ⟨key, value⟩ := item
      rw [List.map_cons, List.nodup_cons] at hkeys
      rw [setAll_cons, ih hkeys.2, keys_setEntry]
      by_cases hkey : key ∈ entries.map (·.1)
      · rw [if_pos hkey, List.append_nil, List.map_cons,
          List.filter_cons_of_neg (by simpa using hkey)]
      · have hfilter : (items.map (·.1)).filter (· ∉ entries.map (·.1) ++ [key]) =
            (items.map (·.1)).filter (· ∉ entries.map (·.1)) := by
          refine List.filter_congr fun other hother => ?_
          have hne : other ≠ key := fun heq => hkeys.1 (heq ▸ hother)
          simp [hne]
        simp only [if_neg hkey, hfilter, List.map_cons, List.append_assoc]
        rw [List.filter_cons_of_pos (by simpa using hkey)]
        rfl

/-- A key that is set has its text; the others have the values they had. -/
theorem lookup_setAll (hkeys : (items.map (·.1)).Nodup) (entries : List (Text × Value))
    (key : Text) :
    (setAll entries items).lookup key =
      ((items.lookup key).map Value.text).or (entries.lookup key) := by
  induction items generalizing entries with
  | nil => simp [setAll]
  | cons item items ih =>
      obtain ⟨first, value⟩ := item
      rw [List.map_cons, List.nodup_cons] at hkeys
      rw [setAll_cons, ih hkeys.2]
      by_cases hkey : key = first
      · subst hkey
        have hnone : items.lookup key = none := by
          rw [← Option.not_isSome_iff_eq_none, lookup_isSome]
          exact hkeys.1
        simp [hnone, lookup_setEntry]
      · rw [lookup_setEntry_of_ne hkey]
        simp [List.lookup_cons, beq_eq_false_iff_ne.2 hkey]

theorem nodup_setAll {entries : List (Text × Value)} (h : (entries.map (·.1)).Nodup)
    (items : Items) : ((setAll entries items).map (·.1)).Nodup := by
  induction items generalizing entries with
  | nil => exact h
  | cons item items ih => exact ih (nodup_setEntry h _ _)

theorem mem_setAll {entries : List (Text × Value)} {entry : Text × Value}
    (h : entry ∈ setAll entries items) :
    entry ∈ entries ∨ ∃ item ∈ items, entry = (item.1, .text item.2) := by
  induction items generalizing entries with
  | nil => exact .inl h
  | cons item items ih =>
      rcases ih h with hmem | ⟨other, hother, rfl⟩
      · rcases mem_setEntry hmem with hmem | rfl
        · exact .inl hmem
        · exact .inr ⟨item, List.mem_cons_self, rfl⟩
      · exact .inr ⟨other, List.mem_cons_of_mem item hother, rfl⟩

theorem Value.isText_iff {value : Value} {wanted : Text} :
    value.isText wanted = true ↔ value = .text wanted := by
  cases value <;> simp [Value.isText]

theorem hasAll_iff_forall {entries : List (Text × Value)} :
    hasAll entries items = true ↔ ∀ item ∈ items, entries.lookup item.1 = some (.text item.2) := by
  have hany (found : Option Value) (wanted : Text) :
      found.any (Value.isText wanted) = true ↔ found = some (.text wanted) := by
    cases found <;> simp [Value.isText_iff]
  simp only [hasAll, List.all_eq_true, hany]

theorem hasAll_iff (hkeys : (items.map (·.1)).Nodup) {entries : List (Text × Value)} :
    hasAll entries items = true ↔
      ∀ key value, items.lookup key = some value → entries.lookup key = some (.text value) := by
  rw [hasAll_iff_forall]
  exact ⟨fun h key value hitem => h (key, value) (mem_of_lookup hitem),
    fun h item hitem => h item.1 item.2 (lookup_of_mem hkeys hitem)⟩

/-- Setting items that are all set changes nothing. -/
theorem setAll_of_hasAll {entries : List (Text × Value)} (h : hasAll entries items = true) :
    setAll entries items = entries := by
  induction items with
  | nil => rfl
  | cons item items ih =>
      obtain ⟨hitem, hitems⟩ := List.forall_mem_cons.1 (hasAll_iff_forall.1 h)
      rw [setAll_cons, setEntry_of_lookup hitem, ih (hasAll_iff_forall.2 hitems)]

/-- Where no key occurs twice among the items, all of them are set at the end. -/
theorem hasAll_setAll (hkeys : (items.map (·.1)).Nodup) (entries : List (Text × Value)) :
    hasAll (setAll entries items) items = true := by
  rw [hasAll_iff hkeys]
  intro key value hitem
  rw [lookup_setAll hkeys, hitem]
  rfl

end BundleHook.PropertyList
