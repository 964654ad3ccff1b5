import BundleHook.Proofs.PropertyList.ArchiveValue

/-!
# Distinct keys

No dictionary of an archive that is read has a text as a key twice, so that none does that its
objects hold. Where this is so, making keys distinct changes nothing.
-/

namespace BundleHook.PropertyList

/-- No key of a dictionary occurs twice. -/
def Value.HasDistinctKeys : Value → Prop
  | .dictionary entries => (entries.map (·.1)).Nodup
  | _ => True

namespace Archive

variable {a : Archive} {refs known : List (Nat × Nat)}

/-- The texts among the keys of an object. -/
def keyTexts (a : Archive) (refs : List (Nat × Nat)) : List Text :=
  refs.filterMap fun entry => a.text? entry.1

theorem keyTexts_append (refs' : List (Nat × Nat)) :
    a.keyTexts (refs ++ refs') = a.keyTexts refs ++ a.keyTexts refs' := List.filterMap_append

theorem keyTexts_cons {entry : Nat × Nat} {t : Text} (h : a.text? entry.1 = some t) :
    a.keyTexts (entry :: refs) = t :: a.keyTexts refs := by
  rw [keyTexts, List.filterMap_cons, h]
  rfl

/-- One entry more, in the place of its key when this is there. -/
def addEntry (a : Archive) (known : List (Nat × Nat)) (entry : Nat × Nat) : List (Nat × Nat) :=
  if (a.text? entry.1).isSome && known.any fun old => a.text? old.1 = a.text? entry.1 then
    known.map fun old => if a.text? old.1 = a.text? entry.1 then (old.1, entry.2) else old
  else known ++ [entry]

theorem any_text?_eq {key : Nat} {t : Text} (hkey : a.text? key = some t) :
    (known.any fun old => a.text? old.1 = a.text? key) = true ↔ t ∈ a.keyTexts known := by
  simp [keyTexts, hkey]

theorem nodup_addEntry (h : (a.keyTexts known).Nodup) (entry : Nat × Nat) :
    (a.keyTexts (a.addEntry known entry)).Nodup := by
  unfold addEntry
  split
  · -- The keys stay as they are.
    have hsame : (fun old : Nat × Nat => a.text?
        (if a.text? old.1 = a.text? entry.1 then (old.1, entry.2) else old).1) =
          fun old => a.text? old.1 := by
      funext old
      split <;> rfl
    rw [keyTexts, List.filterMap_map]
    exact (congrArg (fun f => (known.filterMap f).Nodup) hsame).mpr h
  · next hnew =>
    rw [keyTexts_append]
    cases hkey : a.text? entry.1 with
    | none =>
        have hnone : a.keyTexts [entry] = [] := List.filterMap_cons_none hkey
        rwa [hnone, List.append_nil]
    | some t =>
        rw [hkey, Option.isSome_some, Bool.true_and, ← hkey, any_text?_eq hkey] at hnew
        have hone : a.keyTexts [entry] = [t] := keyTexts_cons hkey
        rw [hone]
        exact h.append (List.nodup_singleton t) (by simpa using hnew)

theorem nodup_distinctEntries (a : Archive) (refs : List (Nat × Nat)) :
    (a.keyTexts (a.distinctEntries refs)).Nodup := by
  have hfold (known : List (Nat × Nat)) (h : (a.keyTexts known).Nodup) :
      (a.keyTexts (refs.foldl a.addEntry known)).Nodup := by
    induction refs generalizing known with
    | nil => exact h
    | cons entry refs ih => exact ih _ (nodup_addEntry h entry)
  exact hfold [] List.nodup_nil

/-- Entries whose keys are distinct stay as they are. -/
theorem distinctEntries_eq_self (h : (a.keyTexts refs).Nodup) : a.distinctEntries refs = refs := by
  have hfold (refs known : List (Nat × Nat)) (h : (a.keyTexts (known ++ refs)).Nodup) :
      refs.foldl a.addEntry known = known ++ refs := by
    induction refs generalizing known with
    | nil => exact (List.append_nil known).symm
    | cons entry refs ih =>
        have hnew : a.addEntry known entry = known ++ [entry] := by
          refine if_neg fun hold => ?_
          obtain ⟨hsome, hany⟩ := Bool.and_eq_true_iff.1 hold
          obtain ⟨t, hkey⟩ := Option.isSome_iff_exists.1 hsome
          rw [any_text?_eq hkey] at hany
          rw [keyTexts_append, keyTexts_cons hkey] at h
          exact (List.nodup_append.1 h).2.2 t hany t List.mem_cons_self rfl
        rw [List.foldl_cons, hnew, ih (known ++ [entry]) (by simpa using h)]
        simp
  exact hfold refs [] h

/-! ## Archives -/

/-- No dictionary has a text as a key twice. -/
def HasDistinctKeys (a : Archive) : Prop :=
  ∀ entry ∈ a.objects, ∀ refs, entry.2 = .dictionary refs → (a.keyTexts refs).Nodup

/-- The object with distinct keys. -/
def distinct (a : Archive) : BinaryObject → BinaryObject
  | .dictionary refs => .dictionary (a.distinctEntries refs)
  | object => object

theorem objects_withDistinctKeys :
    a.withDistinctKeys.objects = a.objects.map fun entry => (entry.1, a.distinct entry.2) := by
  refine List.map_congr_left fun entry _ => ?_
  obtain ⟨ref, object⟩ := entry
  cases object <;> rfl

theorem object?_withDistinctKeys (ref : Nat) :
    a.withDistinctKeys.object? ref = (a.object? ref).map a.distinct := by
  rw [object?, objects_withDistinctKeys, lookup_map fun _ => a.distinct]
  rfl

theorem text?_withDistinctKeys : a.withDistinctKeys.text? = a.text? := by
  funext ref
  rw [text?, text?, object?_withDistinctKeys, Option.bind_map]
  refine congrArg _ (funext fun object => ?_)
  cases object <;> rfl

theorem hasDistinctKeys_withDistinctKeys : a.withDistinctKeys.HasDistinctKeys := by
  intro entry hentry refs hrefs
  rw [objects_withDistinctKeys] at hentry
  obtain ⟨old, -, rfl⟩ := List.mem_map.1 hentry
  rw [keyTexts, text?_withDistinctKeys]
  obtain ⟨ref, object⟩ := old
  cases object <;> cases hrefs
  exact a.nodup_distinctEntries _

theorem withDistinctKeys_eq_self (h : a.HasDistinctKeys) : a.withDistinctKeys = a := by
  have hobjects : a.withDistinctKeys.objects = a.objects := by
    rw [objects_withDistinctKeys]
    refine (List.map_congr_left fun entry hentry => ?_).trans (List.map_id _)
    obtain ⟨ref, object⟩ := entry
    cases object with
    | dictionary refs =>
        exact congrArg (fun refs => (ref, BinaryObject.dictionary refs))
          (distinctEntries_eq_self (h _ hentry refs rfl))
    | _ => rfl
  exact congrArg (Archive.mk · a.top) hobjects

theorem keyTexts_of_forall₂ {entries : List (Text × Value)}
    (h : List.Forall₂ (fun pair entry => a.text? pair.1 = some entry.1) refs entries) :
    a.keyTexts refs = entries.map (·.1) := by
  induction h with
  | nil => rfl
  | cons hkey _ ih => rw [keyTexts_cons hkey, ih, List.map_cons]

/-- Where no dictionary has a text as a key twice, no value has that an object holds. -/
theorem Holds.every_hasDistinctKeys (hdistinct : a.HasDistinctKeys) {ref : Nat} {value : Value}
    (h : a.Holds ref value) : value.Every Value.HasDistinctKeys := by
  induction h with
  | @leaf ref object value hobject hvalue =>
      cases object <;> cases hvalue <;> intro part hpart <;> cases hpart <;> trivial
  | @array ref refs items hobject hlength hitems ih =>
      have hall : List.Forall₂ (fun _ item => item.Every Value.HasDistinctKeys) refs items :=
        List.forall₂_iff_zip.2 ⟨hlength, fun hpair => ih _ hpair⟩
      refine every_array.2 ⟨trivial, fun item hitem => ?_⟩
      obtain ⟨_, -, hevery⟩ := exists_left_of_forall₂ hall hitem
      exact hevery
  | @dictionary ref refs entries hobject hlength hkeys hvalues ih =>
      have hall : List.Forall₂ a.HoldsEntry refs entries :=
        List.forall₂_iff_zip.2 ⟨hlength, fun hpair => ⟨hkeys _ hpair, hvalues _ hpair⟩⟩
      have hevery : List.Forall₂ (fun _ entry => entry.2.Every Value.HasDistinctKeys) refs
          entries := List.forall₂_iff_zip.2 ⟨hlength, fun hpair => ih _ hpair⟩
      refine every_dictionary.2 ⟨?_, fun entry hentry => ⟨trivial, ?_⟩⟩
      · have hnodup := hdistinct (ref, _) (mem_of_lookup hobject) refs rfl
        rwa [keyTexts_of_forall₂ (hall.imp fun _ _ => And.left)] at hnodup
      · obtain ⟨_, -, hentry⟩ := exists_left_of_forall₂ hevery hentry
        exact hentry

/-- No value has a key twice that an archive holds which is read. -/
theorem every_hasDistinctKeys_of_read {octets : Bytes} (hread : Archive.read octets = some a)
    {ref : Nat} {value : Value} (h : a.Holds ref value) :
    value.Every Value.HasDistinctKeys := by
  have hdistinct : a.HasDistinctKeys := by
    simp only [Archive.read, Option.bind_eq_bind, Option.bind_eq_some_iff] at hread
    obtain ⟨s, -, objects, -, hread⟩ := hread
    split at hread
    · obtain rfl := Option.some.inj hread
      exact hasDistinctKeys_withDistinctKeys
    · cases hread
  exact h.every_hasDistinctKeys hdistinct

end Archive

end BundleHook.PropertyList
