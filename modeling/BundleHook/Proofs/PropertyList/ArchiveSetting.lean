import BundleHook.Proofs.PropertyList.ArchiveValue
import BundleHook.Proofs.PropertyList.Setting

/-!
# Setting keys of an archive

Setting a key of the top object puts new objects for the key and its text into the archive, under
references that it does not use, and leaves all objects but the top one. What the top object holds
is updated as a dictionary of values is.
-/

namespace BundleHook.PropertyList.Archive

variable {a : Archive} {key value : Text} {refs : List (Nat × Nat)}
  {entries : List (Text × Value)}

/-! ## The objects afterwards -/

theorem lt_unused {ref : Nat} {object : BinaryObject} (h : a.object? ref = some object) :
    ref < a.unused := by
  have hfold (objects : List (Nat × BinaryObject)) (n : Nat) :
      n ≤ objects.foldl (fun n entry => max n (entry.1 + 1)) n ∧
        ∀ entry ∈ objects, entry.1 < objects.foldl (fun n entry => max n (entry.1 + 1)) n := by
    induction objects generalizing n with
    | nil => exact ⟨Nat.le_refl n, nofun⟩
    | cons entry objects ih =>
        obtain ⟨hle, hall⟩ := ih (max n (entry.1 + 1))
        rw [List.foldl_cons]
        exact ⟨by omega, List.forall_mem_cons.2 ⟨by omega, hall⟩⟩
  exact (hfold a.objects 0).2 (ref, object) (mem_of_lookup h)

/-- An entry of the top object is that of a key. -/
def isKey (a : Archive) (key : Text) (entry : Nat × Nat) : Bool := a.text? entry.1 = some key

/-- The entries of the top object when a key is set. -/
def setRefs (a : Archive) (key : Text) (refs : List (Nat × Nat)) : List (Nat × Nat) :=
  if refs.any (a.isKey key) then
    refs.map fun entry => if a.isKey key entry then (entry.1, a.unused) else entry
  else refs ++ [(a.unused + 1, a.unused)]

theorem entries?_eq_some : a.entries? = some refs ↔ a.object? a.top = some (.dictionary refs) := by
  unfold entries?
  split <;> simp_all

theorem object?_set (h : a.object? a.top = some (.dictionary refs)) (ref : Nat) :
    (a.set key value).object? ref =
      ((a.object? ref).map fun object =>
        if ref = a.top then .dictionary (a.setRefs key refs) else object).or
        (if ref = a.unused then some (.text value) else
          if ref = a.unused + 1 then some (.text key) else none) := by
  have hobjects : (a.set key value).objects =
      (a.objects.map fun entry => (entry.1,
        if entry.1 = a.top then .dictionary (a.setRefs key refs) else entry.2)) ++
        [(a.unused, .text value), (a.unused + 1, .text key)] := by
    rw [set, entries?_eq_some.2 h]
    refine congrArg (· ++ _) (List.map_congr_left fun entry _ => ?_)
    dsimp only
    split <;> rfl
  rw [object?, hobjects, List.lookup_append,
    lookup_map fun known object =>
      if known = a.top then BinaryObject.dictionary (a.setRefs key refs) else object]
  refine congrArg (Option.or _) ?_
  rw [List.lookup_cons, List.lookup_cons, List.lookup_nil]
  by_cases hvalue : ref = a.unused
  · rw [if_pos hvalue, beq_iff_eq.2 hvalue]
  · rw [if_neg hvalue, beq_eq_false_iff_ne.2 hvalue]
    by_cases hkey : ref = a.unused + 1
    · rw [if_pos hkey, beq_iff_eq.2 hkey]
    · rw [if_neg hkey, beq_eq_false_iff_ne.2 hkey]

theorem top_set : (a.set key value).top = a.top := by
  unfold set
  split <;> rfl

section Objects

variable (h : a.object? a.top = some (.dictionary refs))
include h

theorem object?_set_top :
    (a.set key value).object? a.top = some (.dictionary (a.setRefs key refs)) := by
  simp [object?_set h, h]

theorem object?_set_of_ne {ref : Nat} (hne : ref ≠ a.top) {object : BinaryObject}
    (hobject : a.object? ref = some object) : (a.set key value).object? ref = some object := by
  simp [object?_set h, hobject, hne]

variable (key value) in
theorem text?_set_unused : (a.set key value).text? a.unused = some value ∧
    (a.set key value).text? (a.unused + 1) = some key := by
  have hnone (n : Nat) : a.object? (a.unused + n) = none := by
    by_contra hsome
    obtain ⟨object, hobject⟩ := Option.ne_none_iff_exists'.1 hsome
    exact absurd (lt_unused hobject) (by omega)
  have hfirst := hnone 0
  have hsecond := hnone 1
  rw [Nat.add_zero] at hfirst
  rw [text?_eq_some, text?_eq_some, object?_set h, object?_set h, hfirst, hsecond]
  simp

end Objects

/-! ## The value afterwards -/

/-- Setting a key of the top object updates the dictionary that it holds. -/
theorem Holds.set (h : a.Holds a.top (.dictionary entries)) (hnodup : (entries.map (·.1)).Nodup)
    (key value : Text) : (a.set key value).Holds (a.set key value).top
      (.dictionary (setEntry key (.text value) entries)) := by
  obtain ⟨refs, htop, hall⟩ := holds_dictionary.1 h
  -- What is smaller than the dictionary is not held by the top object, and is carried over.
  let IsInside (ref : Nat) : Prop :=
    ∃ inner, a.Holds ref inner ∧ sizeOf inner < sizeOf (Value.dictionary entries)
  have hcarried (ref : Nat) (object : BinaryObject) (hinside : IsInside ref)
      (hobject : a.object? ref = some object) :
      (a.set key value).object? (id ref) = some (object.renumbered id) ∧
        ∀ part ∈ object.parts, IsInside part := by
    obtain ⟨inner, hinner, hsize⟩ := hinside
    have hne : ref ≠ a.top := by
      rintro rfl
      rw [hinner.unique h] at hsize
      exact Nat.lt_irrefl _ hsize
    refine ⟨by simpa using object?_set_of_ne htop hne hobject, fun part hpart => ?_⟩
    obtain ⟨deeper, hdeeper, hless, -⟩ := hinner.of_part hobject hpart
    exact ⟨deeper, hdeeper, hless.trans hsize⟩
  have hinside {part : Nat} (hpart : part ∈ (BinaryObject.dictionary refs).parts) :
      IsInside part := by
    obtain ⟨inner, hinner, hsize, -⟩ := h.of_part htop hpart
    exact ⟨inner, hinner, hsize⟩
  have hparts : ∀ entry ∈ refs, IsInside entry.1 ∧ IsInside entry.2 := fun entry hentry =>
    ⟨hinside (List.mem_append_left _ (List.mem_map_of_mem hentry)),
      hinside (List.mem_append_right _ (List.mem_map_of_mem hentry))⟩
  have hkept : List.Forall₂ (fun pair entry => a.text? pair.1 = some entry.1 ∧
      (a.set key value).HoldsEntry pair entry) refs entries := by
    refine ((List.forall₂_and_left _ _).2 ⟨hparts, hall⟩).imp fun pair entry hpair => ?_
    obtain ⟨⟨hkeyInside, hvalueInside⟩, hkey, hvalue⟩ := hpair
    exact ⟨hkey, holds_text.1 ((holds_text.2 hkey).map hcarried hkeyInside),
      hvalue.map hcarried hvalueInside⟩
  obtain ⟨hvalue, hkey⟩ := text?_set_unused key value htop
  rw [top_set, holds_dictionary]
  refine ⟨_, object?_set_top htop, ?_⟩
  by_cases hmem : key ∈ entries.map (·.1)
  · have hany : refs.any (a.isKey key) = true := by
      obtain ⟨entry, hentry, rfl⟩ := List.mem_map.1 hmem
      obtain ⟨pair, hpair, hholds⟩ := exists_left_of_forall₂ hall hentry
      exact List.any_eq_true.2 ⟨pair, hpair, by simp [isKey, hholds.1]⟩
    rw [setRefs, if_pos hany, setEntry_of_mem hnodup hmem, List.forall₂_map_left_iff,
      List.forall₂_map_right_iff]
    refine hkept.imp fun pair entry hpair => ?_
    obtain ⟨hold, hholds⟩ := hpair
    by_cases heq : entry.1 = key
    · rw [if_pos (by simp [isKey, hold, heq]), if_pos heq]
      exact ⟨hholds.1, holds_text.2 hvalue⟩
    · rw [if_neg (by simp [isKey, hold, heq]), if_neg heq]
      exact hholds
  · have hany : ¬refs.any (a.isKey key) = true := by
      rw [List.any_eq_true]
      rintro ⟨pair, hpair, hkeyed⟩
      obtain ⟨entry, hentry, hholds⟩ := exists_left_of_forall₂ hall.flip hpair
      have heq : entry.1 = key := by simpa [isKey, hholds.1] using hkeyed
      exact hmem (heq ▸ List.mem_map_of_mem hentry)
    rw [setRefs, if_neg hany, setEntry_of_notMem hmem]
    exact List.rel_append (hkept.imp fun _ _ => And.right)
      (.cons ⟨hkey, holds_text.2 hvalue⟩ .nil)

theorem setAll_cons (item : Text × Text) (items : Items) :
    a.setAll (item :: items) = (a.set item.1 item.2).setAll items := rfl

theorem Holds.setAll (h : a.Holds a.top (.dictionary entries))
    (hnodup : (entries.map (·.1)).Nodup) (items : Items) :
    (a.setAll items).Holds (a.setAll items).top
      (.dictionary (PropertyList.setAll entries items)) := by
  induction items generalizing a entries with
  | nil => exact h
  | cons item items ih => exact ih (h.set hnodup item.1 item.2) (nodup_setEntry hnodup _ _)

/-! ## What is there already -/

/-- The top object has the texts of all items just when the dictionary that it holds has. -/
theorem Holds.hasAll (h : a.Holds a.top (.dictionary entries)) (items : Items) :
    a.hasAll items = PropertyList.hasAll entries items := by
  obtain ⟨refs, htop, hall⟩ := holds_dictionary.1 h
  have hlookup (key wanted : Text) :
      ((a.valueOf? key).any fun ref => a.text? ref = some wanted) =
        (entries.lookup key).any (Value.isText wanted) := by
    rw [valueOf?, entries?_eq_some.2 htop, Option.getD_some]
    clear h htop
    induction hall with
    | nil => rfl
    | @cons pair entry refs entries hpair _ ih =>
        obtain ⟨key', value⟩ := entry
        obtain ⟨ref, part⟩ := pair
        have htext : a.text? ref = some key' := hpair.1
        rw [List.findSome?_cons, List.lookup_cons]
        by_cases heq : key = key'
        · have hiff : a.text? part = some wanted ↔ value = .text wanted :=
            hpair.2.text?_eq_some_iff
          simp only [htext, heq, beq_self_eq_true, if_true, Option.any_some]
          rw [Bool.eq_iff_iff, decide_eq_true_iff, Value.isText_iff, hiff]
        · simp only [beq_eq_false_iff_ne.2 heq, htext, Option.some.injEq, Ne.symm heq, if_false]
          exact ih
  exact congrArg (items.all ·) (funext fun item => hlookup item.1 item.2)

end BundleHook.PropertyList.Archive
