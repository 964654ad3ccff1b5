import BundleHook.Proofs.PropertyList.ArchiveFile
import BundleHook.Proofs.PropertyList.ArchiveSetting

/-!
# Archives that are read, changed and read again

The objects of an archive that is read can be written, whatever they are: numbers with fractions,
dates, identifiers, and objects that lie inside themselves included. Setting keys of its top object
keeps it so, and the file with the keys set is read again with all of them set.

* `isClosed_of_read` — what an archive that is read is like;
* `IsClosed.setAll` — setting keys keeps that;
* `exists_read_setAll` — what is written afterwards is read again, and has the keys set.
-/

namespace BundleHook.PropertyList.Archive

variable {a : Archive} {key value : Text} {refs : List (Nat × Nat)} {items : Items} {P : Nat → Prop}

/-! ## Archives that are read -/

namespace Source

variable {s : Source} {known all : List (Nat × BinaryObject)}

theorem of_mapM_object? {news : List Nat} {objects : List (Nat × BinaryObject)}
    (h : (news.mapM fun ref => do return (ref, ← s.object? ref)) = some objects) :
    objects.map (·.1) = news ∧ ∀ entry ∈ objects, s.object? entry.1 = some entry.2 := by
  have hall (ref : Nat) (href : ref ∈ news) : ∃ object, s.object? ref = some object := by
    induction news generalizing objects with
    | nil => cases href
    | cons first news ih =>
        rw [List.mapM_cons] at h
        obtain ⟨entry, hentry, h⟩ := Option.bind_eq_some_iff.1 h
        obtain ⟨others, hothers, -⟩ := Option.bind_eq_some_iff.1 h
        obtain ⟨object, hobject, -⟩ := Option.bind_eq_some_iff.1 hentry
        rcases List.mem_cons.1 href with rfl | href
        · exact ⟨object, hobject⟩
        · exact ih hothers href
  obtain ⟨objects', hsame, hspec⟩ := exists_objects hall
  obtain rfl := Option.some.inj (h.symm.trans hsame)
  exact hspec

theorem reached_zero {refs : List Nat} (h : fresh known refs ≠ []) :
    s.reached 0 known refs = none := by
  unfold fresh at h
  rw [reached]
  split
  · next hnil => exact absurd hnil h
  · rfl

/-- Rounds that come to an end have read all that the references reach. -/
theorem isReached_of_reached {refs : List Nat} {rounds : Nat}
    (hknown : ∀ entry ∈ known, s.object? entry.1 = some entry.2)
    (hclosed : ∀ entry ∈ known, ∀ part ∈ entry.2.parts, part ∈ known.map (·.1) ∨ part ∈ refs)
    (h : s.reached rounds known refs = some all) : known <+: all ∧ s.IsReached refs all := by
  induction rounds generalizing known refs with
  | zero =>
      by_cases hfresh : fresh known refs = []
      · rw [reached_of_fresh_eq_nil hfresh] at h
        obtain rfl := Option.some.inj h
        exact ⟨List.prefix_rfl, isReached_of_fresh_eq_nil hfresh hknown hclosed⟩
      · rw [reached_zero hfresh] at h
        cases h
  | succ rounds ih =>
      by_cases hfresh : fresh known refs = []
      · rw [reached_of_fresh_eq_nil hfresh] at h
        obtain rfl := Option.some.inj h
        exact ⟨List.prefix_rfl, isReached_of_fresh_eq_nil hfresh hknown hclosed⟩
      · rw [reached_succ hfresh] at h
        obtain ⟨objects, hobjects, h⟩ := Option.bind_eq_some_iff.1 h
        obtain ⟨hfirsts, hread⟩ := of_mapM_object? hobjects
        obtain ⟨hbegins, hreached⟩ := ih
          (fun entry hentry => (List.mem_append.1 hentry).elim (hknown entry) (hread entry))
          (fun entry hentry part hpart => by
            rw [List.map_append, hfirsts]
            rcases List.mem_append.1 hentry with hentry | hentry
            · exact .inl ((hclosed entry hentry part hpart).elim
                (fun hold => List.mem_append_left _ hold) (mem_append_fresh known))
            · exact .inr (List.mem_flatMap.2 ⟨entry, hentry, hpart⟩)) h
        refine ⟨(List.prefix_append _ _).trans hbegins, hreached.object, fun ref href => ?_,
          hreached.part⟩
        refine (hbegins.map (·.1)).subset ?_
        rw [List.map_append, hfirsts]
        exact mem_append_fresh known href

end Source

theorem mem_addEntry {known : List (Nat × Nat)} {entry pair : Nat × Nat}
    (h : pair ∈ a.addEntry known entry) :
    (pair.1 = entry.1 ∨ pair.1 ∈ known.map (·.1)) ∧
      (pair.2 = entry.2 ∨ pair.2 ∈ known.map (·.2)) := by
  unfold addEntry at h
  split at h
  · obtain ⟨old, hold, rfl⟩ := List.mem_map.1 h
    split
    · exact ⟨.inr (List.mem_map.2 ⟨old, hold, rfl⟩), .inl rfl⟩
    · exact ⟨.inr (List.mem_map_of_mem hold), .inr (List.mem_map_of_mem hold)⟩
  · rcases List.mem_append.1 h with hold | hnew
    · exact ⟨.inr (List.mem_map_of_mem hold), .inr (List.mem_map_of_mem hold)⟩
    · obtain rfl := List.mem_singleton.1 hnew
      exact ⟨.inl rfl, .inl rfl⟩

/-- Making keys distinct brings no new parts. -/
theorem mem_distinctEntries {pair : Nat × Nat} (h : pair ∈ a.distinctEntries refs) :
    pair.1 ∈ refs.map (·.1) ∧ pair.2 ∈ refs.map (·.2) := by
  have hfold (refs known : List (Nat × Nat)) (h : pair ∈ refs.foldl a.addEntry known) :
      (pair.1 ∈ refs.map (·.1) ∨ pair.1 ∈ known.map (·.1)) ∧
        (pair.2 ∈ refs.map (·.2) ∨ pair.2 ∈ known.map (·.2)) := by
    induction refs generalizing known with
    | nil => exact ⟨.inr (List.mem_map_of_mem h), .inr (List.mem_map_of_mem h)⟩
    | cons entry refs ih =>
        obtain ⟨hkey, hvalue⟩ := ih _ h
        simp only [List.map_cons, List.mem_cons, or_assoc]
        refine ⟨?_, ?_⟩
        · rcases hkey with hkey | hkey
          · exact .inr (.inl hkey)
          · obtain ⟨old, hold, heq⟩ := List.mem_map.1 hkey
            rw [← heq]
            exact (mem_addEntry hold).1.imp_right .inr
        · rcases hvalue with hvalue | hvalue
          · exact .inr (.inl hvalue)
          · obtain ⟨old, hold, heq⟩ := List.mem_map.1 hvalue
            rw [← heq]
            exact (mem_addEntry hold).2.imp_right .inr
  obtain ⟨hkey, hvalue⟩ := hfold refs [] h
  exact ⟨hkey.resolve_right List.not_mem_nil, hvalue.resolve_right List.not_mem_nil⟩

theorem mem_parts_dictionary {ref : Nat} :
    ref ∈ (BinaryObject.dictionary refs).parts ↔ ∃ pair ∈ refs, ref = pair.1 ∨ ref = pair.2 := by
  simp only [BinaryObject.parts, List.mem_append, List.mem_map]
  constructor
  · rintro (⟨pair, hpair, rfl⟩ | ⟨pair, hpair, rfl⟩)
    · exact ⟨pair, hpair, .inl rfl⟩
    · exact ⟨pair, hpair, .inr rfl⟩
  · rintro ⟨pair, hpair, rfl | rfl⟩
    · exact .inl ⟨pair, hpair, rfl⟩
    · exact .inr ⟨pair, hpair, rfl⟩

theorem mem_parts_distinct {object : BinaryObject} {part : Nat}
    (h : part ∈ (a.distinct object).parts) : part ∈ object.parts := by
  cases object with
  | dictionary refs =>
      obtain ⟨pair, hpair, hpart⟩ := mem_parts_dictionary.1 h
      obtain ⟨hkey, hvalue⟩ := mem_distinctEntries hpair
      rcases hpart with rfl | rfl
      · exact List.mem_append_left _ hkey
      · exact List.mem_append_right _ hvalue
  | _ => exact h

theorem isReadable_distinct {object : BinaryObject} (h : object.IsReadable) :
    (a.distinct object).IsReadable := by
  cases object with
  | dictionary => trivial
  | _ => exact h

/-- The objects of an archive that is read can be written, and so can their parts. -/
theorem isClosed_of_read {octets : Bytes} (h : Archive.read octets = some a) :
    a.IsClosed (· ∈ a.objects.map (·.1)) ∧ a.top ∈ a.objects.map (·.1) := by
  simp only [Archive.read, Option.bind_eq_bind, Option.bind_eq_some_iff] at h
  obtain ⟨s, -, objects, hobjects, h⟩ := h
  split at h
  · obtain rfl := Option.some.inj h
    obtain ⟨-, hreached⟩ := Source.isReached_of_reached (List.forall_mem_nil _)
      (List.forall_mem_nil _) hobjects
    have hrefs : (withDistinctKeys ⟨objects, s.top⟩).objects.map (·.1) = objects.map (·.1) := by
      rw [objects_withDistinctKeys, List.map_map]
      rfl
    refine ⟨⟨fun ref href => ?_, fun ref refs _ hobject => ?_⟩, ?_⟩
    · rw [hrefs] at href
      obtain ⟨object, hobject⟩ := Option.isSome_iff_exists.1 (lookup_isSome.2 href)
      have hentry := mem_of_lookup hobject
      refine ⟨_, by rw [object?_withDistinctKeys, object?, hobject]; rfl,
        isReadable_distinct ?_, fun part hpart => ?_⟩
      · obtain ⟨offset, -, hread⟩ := Option.bind_eq_some_iff.1 (hreached.object _ hentry)
        exact BinaryObject.allReadable_read _ object hread
      · rw [hrefs]
        exact hreached.part _ hentry part (mem_parts_distinct hpart)
    · exact hasDistinctKeys_withDistinctKeys _ (mem_of_lookup hobject) refs rfl
    · rw [hrefs]
      exact hreached.ref s.top (List.mem_singleton.2 rfl)
  · cases h

/-! ## Setting a key -/

theorem mem_setRefs {pair : Nat × Nat} (h : pair ∈ a.setRefs key refs) :
    (pair.1 = a.unused + 1 ∨ pair.1 ∈ refs.map (·.1)) ∧
      (pair.2 = a.unused ∨ pair.2 ∈ refs.map (·.2)) := by
  unfold setRefs at h
  split at h
  · obtain ⟨old, hold, rfl⟩ := List.mem_map.1 h
    split
    · exact ⟨.inr (List.mem_map.2 ⟨old, hold, rfl⟩), .inl rfl⟩
    · exact ⟨.inr (List.mem_map_of_mem hold), .inr (List.mem_map_of_mem hold)⟩
  · rcases List.mem_append.1 h with hold | hnew
    · exact ⟨.inr (List.mem_map_of_mem hold), .inr (List.mem_map_of_mem hold)⟩
    · obtain rfl := List.mem_singleton.1 hnew
      exact ⟨.inl rfl, .inl rfl⟩

section Set

variable (h : a.IsClosed P) (htop : P a.top) (hrefs : a.object? a.top = some (.dictionary refs))

include hrefs in
/-- A text that is there stays when a key is set. -/
theorem text?_set {ref : Nat} {object : BinaryObject} (hobject : a.object? ref = some object) :
    (a.set key value).text? ref = a.text? ref := by
  by_cases heq : ref = a.top
  · subst heq
    rw [text?, text?, object?_set_top hrefs, hrefs]
    rfl
  · rw [text?, text?, object?_set_of_ne hrefs heq hobject, hobject]

include h hrefs

variable (key value) in
theorem keyTexts_set {ref : Nat} {old : List (Nat × Nat)} (href : P ref)
    (hold : a.object? ref = some (.dictionary old)) :
    (a.set key value).keyTexts old = a.keyTexts old := by
  refine List.filterMap_congr fun pair hpair => ?_
  obtain ⟨object, hobject, -⟩ := h.object pair.1
    ((h.parts href hold).2 _ (mem_parts_dictionary.2 ⟨pair, hpair, .inl rfl⟩))
  exact text?_set hrefs hobject

include htop

theorem nodup_keyTexts_setRefs :
    ((a.set key value).keyTexts (a.setRefs key refs)).Nodup := by
  have hold := keyTexts_set key value h hrefs htop hrefs
  have hnodup := h.keys a.top refs htop hrefs
  unfold setRefs
  split
  · -- The keys stay as they are.
    have hkeys : ((a.set key value).keyTexts
        (refs.map fun entry => if a.isKey key entry then (entry.1, a.unused) else entry)) =
          (a.set key value).keyTexts refs := by
      rw [keyTexts, List.filterMap_map]
      refine List.filterMap_congr fun pair _ => ?_
      simp only [Function.comp_apply]
      split <;> rfl
    rwa [hkeys, hold]
  · next hnone =>
    rw [keyTexts_append, hold, keyTexts_cons (text?_set_unused _ _ hrefs).2]
    refine hnodup.append (List.nodup_singleton key) fun t ht hkey => hnone ?_
    obtain rfl := List.mem_singleton.1 hkey
    obtain ⟨pair, hpair, hpairKey⟩ := List.mem_filterMap.1 ht
    exact List.any_eq_true.2 ⟨pair, hpair, by simp [isKey, hpairKey]⟩

/-- Setting a key keeps an archive closed, with two more objects. -/
theorem IsClosed.set : (a.set key value).IsClosed
    fun ref => P ref ∨ ref = a.unused ∨ ref = a.unused + 1 where
  object := by
    rintro ref (href | rfl | rfl)
    · by_cases heq : ref = a.top
      · subst heq
        refine ⟨_, object?_set_top hrefs, trivial, fun part hpart => ?_⟩
        obtain ⟨pair, hpair, hpart⟩ := mem_parts_dictionary.1 hpart
        obtain ⟨hkey, hvalue⟩ := mem_setRefs hpair
        have hparts := (h.parts htop hrefs).2
        rcases hpart with rfl | rfl
        · rcases hkey with hkey | hkey
          · exact .inr (.inr hkey)
          · exact .inl (hparts _ (List.mem_append_left _ hkey))
        · rcases hvalue with hvalue | hvalue
          · exact .inr (.inl hvalue)
          · exact .inl (hparts _ (List.mem_append_right _ hvalue))
      · obtain ⟨object, hobject, hreadable, hparts⟩ := h.object ref href
        exact ⟨object, object?_set_of_ne hrefs heq hobject, hreadable,
          fun part hpart => .inl (hparts part hpart)⟩
    · exact ⟨_, text?_eq_some.1 (text?_set_unused _ _ hrefs).1, trivial, nofun⟩
    · exact ⟨_, text?_eq_some.1 (text?_set_unused _ _ hrefs).2, trivial, nofun⟩
  keys := by
    rintro ref refs' (href | rfl | rfl) hobject
    · by_cases heq : ref = a.top
      · subst heq
        rw [object?_set_top hrefs] at hobject
        obtain rfl := BinaryObject.dictionary.inj (Option.some.inj hobject)
        exact nodup_keyTexts_setRefs h htop hrefs
      · obtain ⟨object, hold, -⟩ := h.object ref href
        rw [object?_set_of_ne hrefs heq hold] at hobject
        obtain rfl := Option.some.inj hobject
        rw [keyTexts_set _ _ h hrefs href hold]
        exact h.keys ref refs' href hold
    · have htext := text?_eq_some.1 (text?_set_unused key value hrefs).1
      cases hobject.symm.trans htext
    · have htext := text?_eq_some.1 (text?_set_unused key value hrefs).2
      cases hobject.symm.trans htext

end Set

/-! ## Keys that are set -/

/-- The top object has a text under a key. -/
def HasEntry (a : Archive) (key wanted : Text) : Prop :=
  ∃ refs pair, a.object? a.top = some (.dictionary refs) ∧ pair ∈ refs ∧
    a.text? pair.1 = some key ∧ a.text? pair.2 = some wanted

/-- Where no key is there twice, having the texts of all items is a matter of entries. -/
theorem hasAll_iff (hrefs : a.object? a.top = some (.dictionary refs))
    (hnodup : (a.keyTexts refs).Nodup) :
    a.hasAll items = true ↔ ∀ item ∈ items, a.HasEntry item.1 item.2 := by
  have hfind (key wanted : Text) :
      ((a.valueOf? key).any fun ref => a.text? ref = some wanted) = true ↔
        ∃ pair ∈ refs, a.text? pair.1 = some key ∧ a.text? pair.2 = some wanted := by
    rw [valueOf?, entries?_eq_some.2 hrefs, Option.getD_some]
    clear hrefs
    induction refs with
    | nil => simp
    | cons pair refs ih =>
        rw [List.findSome?_cons]
        by_cases hkey : a.text? pair.1 = some key
        · -- No other entry has the key.
          have hothers : ∀ other ∈ refs, a.text? other.1 ≠ some key := by
            rw [keyTexts_cons hkey, List.nodup_cons] at hnodup
            exact fun other hother heq => hnodup.1 (List.mem_filterMap.2 ⟨other, hother, heq⟩)
          simp only [hkey, if_true, Option.any_some, decide_eq_true_eq, List.mem_cons,
            exists_eq_or_imp, true_and]
          refine ⟨.inl, fun h => h.elim id ?_⟩
          rintro ⟨other, hother, hsame, -⟩
          exact absurd hsame (hothers other hother)
        · have hrest : (a.keyTexts refs).Nodup := by
            rw [← List.singleton_append, keyTexts_append] at hnodup
            exact (List.nodup_append.1 hnodup).2.1
          simp only [hkey, if_false, List.mem_cons, exists_eq_or_imp, false_and, false_or]
          exact ih hrest
  simp only [hasAll, List.all_eq_true, hfind, HasEntry, hrefs, Option.some.injEq,
    BinaryObject.dictionary.injEq]
  refine forall₂_congr fun item _ => ⟨?_, ?_⟩
  · rintro ⟨pair, hpair, hkey, hvalue⟩
    exact ⟨refs, pair, rfl, hpair, hkey, hvalue⟩
  · rintro ⟨_, pair, rfl, hpair, hkey, hvalue⟩
    exact ⟨pair, hpair, hkey, hvalue⟩

section Set

variable (h : a.IsClosed P) (htop : P a.top) (hrefs : a.object? a.top = some (.dictionary refs))
include h htop hrefs

variable (key value) in
theorem text?_set_of_mem {pair : Nat × Nat} (hpair : pair ∈ refs) :
    (a.set key value).text? pair.1 = a.text? pair.1 ∧
      (a.set key value).text? pair.2 = a.text? pair.2 := by
  have hparts := (h.parts htop hrefs).2
  obtain ⟨_, hkey, -⟩ := h.object pair.1
    (hparts _ (mem_parts_dictionary.2 ⟨pair, hpair, .inl rfl⟩))
  obtain ⟨_, hvalue, -⟩ := h.object pair.2
    (hparts _ (mem_parts_dictionary.2 ⟨pair, hpair, .inr rfl⟩))
  exact ⟨text?_set hrefs hkey, text?_set hrefs hvalue⟩

theorem hasEntry_set : (a.set key value).HasEntry key value := by
  obtain ⟨hvalue, hkey⟩ := text?_set_unused key value hrefs
  unfold HasEntry
  rw [top_set]
  by_cases hany : refs.any (a.isKey key) = true
  · obtain ⟨pair, hpair, hisKey⟩ := List.any_eq_true.1 hany
    refine ⟨_, (pair.1, a.unused), object?_set_top hrefs, ?_, ?_, hvalue⟩
    · rw [setRefs, if_pos hany]
      exact List.mem_map.2 ⟨pair, hpair, if_pos hisKey⟩
    · rw [(text?_set_of_mem _ _ h htop hrefs hpair).1]
      simpa [isKey] using hisKey
  · refine ⟨_, (a.unused + 1, a.unused), object?_set_top hrefs, ?_, hkey, hvalue⟩
    rw [setRefs, if_neg hany]
    exact List.mem_append_right _ (List.mem_singleton.2 rfl)

theorem HasEntry.set {other wanted : Text} (hentry : a.HasEntry other wanted) (hne : other ≠ key) :
    (a.set key value).HasEntry other wanted := by
  obtain ⟨refs', pair, hrefs', hpair, hkey, hwanted⟩ := hentry
  obtain rfl := BinaryObject.dictionary.inj (Option.some.inj (hrefs.symm.trans hrefs'))
  obtain ⟨hkeyKept, hwantedKept⟩ := text?_set_of_mem key value h htop hrefs hpair
  have hother : ¬a.isKey key pair = true := by simp [isKey, hkey, hne]
  unfold HasEntry
  rw [top_set]
  refine ⟨_, pair, object?_set_top hrefs, ?_, hkeyKept.trans hkey, hwantedKept.trans hwanted⟩
  unfold setRefs
  split
  · exact List.mem_map.2 ⟨pair, hpair, if_neg hother⟩
  · exact List.mem_append_left _ hpair

end Set

/-- Setting keys keeps an archive closed, keeps the entries of other keys, and sets all of them. -/
theorem IsClosed.setAll (h : a.IsClosed P) (htop : P a.top)
    (hrefs : a.object? a.top = some (.dictionary refs)) (hkeys : (items.map (·.1)).Nodup) :
    ∃ Q refs', (a.setAll items).IsClosed Q ∧ Q (a.setAll items).top ∧
      (a.setAll items).object? (a.setAll items).top = some (.dictionary refs') ∧
      (∀ item ∈ items, (a.setAll items).HasEntry item.1 item.2) ∧
      ∀ key wanted, key ∉ items.map (·.1) → a.HasEntry key wanted →
        (a.setAll items).HasEntry key wanted := by
  induction items generalizing a P refs with
  | nil => exact ⟨P, refs, h, htop, hrefs, nofun, fun _ _ _ hentry => hentry⟩
  | cons item items ih =>
      rw [List.map_cons, List.nodup_cons] at hkeys
      rw [setAll_cons]
      have hclosed : (a.set item.1 item.2).IsClosed _ := h.set htop hrefs
      obtain ⟨Q, refs', hclosed, hQ, hrefs', hset, hkept⟩ := ih hclosed
        (by rw [top_set]; exact .inl htop)
        (by rw [top_set]; exact object?_set_top hrefs) hkeys.2
      refine ⟨Q, refs', hclosed, hQ, hrefs', List.forall_mem_cons.2 ⟨?_, hset⟩, ?_⟩
      · exact hkept item.1 item.2 hkeys.1 (hasEntry_set h htop hrefs)
      · intro key wanted hkey hentry
        rw [List.map_cons, List.mem_cons, not_or] at hkey
        exact hkept key wanted hkey.2 (hentry.set h htop hrefs hkey.1)

/-! ## Reading again -/

/-- An entry is there again when the archive is read. -/
theorem IsReread.hasEntry {a' : Archive} (h : a.IsReread a') (hclosed : a.IsClosed P)
    (htop : P a.top) {wanted : Text} (hentry : a.HasEntry key wanted) : a'.HasEntry key wanted := by
  obtain ⟨refs, pair, hrefs, hpair, hkey, hwanted⟩ := hentry
  obtain ⟨⟨read, hread, hresembles⟩, hparts⟩ :=
    h.object?_numberIn hclosed htop (h.isCarried_top hclosed htop) hrefs
  obtain rfl := hresembles.eq_dictionary
  rw [numberIn_top hclosed htop, ← h.top] at hread
  refine ⟨_, (a.numberIn pair.1, a.numberIn pair.2), hread, List.mem_map_of_mem hpair, ?_, ?_⟩
  · rw [h.text?_numberIn hclosed htop
      (hparts _ (mem_parts_dictionary.2 ⟨pair, hpair, .inl rfl⟩)), hkey]
  · rw [h.text?_numberIn hclosed htop
      (hparts _ (mem_parts_dictionary.2 ⟨pair, hpair, .inr rfl⟩)), hwanted]

/-- A file that is written with keys set is read again, and has them set. -/
theorem exists_read_setAll {octets out : Bytes} (hread : Archive.read octets = some a)
    (hentries : a.entries?.isSome = true) (hkeys : (items.map (·.1)).Nodup)
    (h : (a.setAll items).write = .ok out) :
    ∃ a', Archive.read out = some a' ∧ a'.entries?.isSome = true ∧ a'.hasAll items = true := by
  obtain ⟨hclosed, htop⟩ := isClosed_of_read hread
  obtain ⟨refs, hrefs⟩ := Option.isSome_iff_exists.1 hentries
  obtain ⟨Q, refs', hclosed', htop', hrefs', hset, -⟩ :=
    hclosed.setAll htop (entries?_eq_some.1 hrefs) hkeys
  obtain ⟨a', hread', hreread⟩ := exists_read hclosed' htop' h
  obtain ⟨⟨found, hfound, hresembles⟩, -⟩ :=
    hreread.object?_numberIn hclosed' htop' (hreread.isCarried_top hclosed' htop') hrefs'
  obtain rfl := hresembles.eq_dictionary
  rw [numberIn_top hclosed' htop', ← hreread.top] at hfound
  have hnodup := hreread.hasDistinctKeys hclosed' htop' _ (mem_of_lookup hfound) _ rfl
  refine ⟨a', hread', by rw [entries?_eq_some.2 hfound]; rfl, (hasAll_iff hfound hnodup).2 ?_⟩
  exact fun item hitem => hreread.hasEntry hclosed' htop' (hset item hitem)

end BundleHook.PropertyList.Archive
