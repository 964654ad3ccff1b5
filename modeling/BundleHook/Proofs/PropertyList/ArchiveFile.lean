import BundleHook.Proofs.PropertyList.ArchiveSource
import BundleHook.Proofs.PropertyList.DistinctKeys
import BundleHook.Proofs.PropertyList.Layout

/-!
# Written archives are read again

An archive is written with its objects by their numbers in the layout. Equal objects without parts
have one number, and all others have their own, so that the file holds at its top what the archive
holds at its top. Objects may lie inside themselves; numbers with fractions and dates may be rounded.

* `exists_read` — every archive that is written is read again, with the objects that were reached;
* `read_write` — what the top object holds, it holds again.
-/

namespace BundleHook.PropertyList.Archive

variable {a : Archive} {value : Value} {P : Nat → Prop}

/-! ## Numbers -/

/-- The number of a reference in the layout. -/
def numberIn (a : Archive) (ref : Nat) : Nat := (a.layout.map (·.1)).idxOf (a.identity ref)

/-- The width of references in the file. -/
def referenceWidth (a : Archive) : Nat := BinaryObject.widthFor a.layout.length

theorem write_eq_ok {out : Bytes} (h : a.write = .ok out) :
    a.hasForeignKey (a.layout.map (·.2)) = false ∧
      ∃ parts, List.Forall₂ (fun object octets =>
          object.write a.referenceWidth a.numberIn = some octets) (a.layout.map (·.2)) parts ∧
        tableOffset parts < 2 ^ 64 ∧ out = file a.referenceWidth parts := by
  unfold write at h
  simp only [List.length_map] at h
  split at h
  · cases h
  · next hforeign =>
    obtain ⟨parts, hparts, h⟩ := bind_eq_ok.1 h
    split at h
    · cases h
    · next hoffset =>
      obtain rfl := Except.ok.inj h
      have hall := forall₂_of_writeAll hparts
      refine ⟨Bool.eq_false_iff.2 hforeign, parts, hall, Nat.lt_of_not_le hoffset, ?_⟩
      have hlength := hall.length_eq
      rw [List.length_map] at hlength
      rw [file, trailer, ← hlength]
      rfl

/-- The references with `P` stand for objects that can be read again and whose parts are among them,
and none of their dictionaries has a text as a key twice. -/
structure IsClosed (a : Archive) (P : Nat → Prop) : Prop where
  object : ∀ ref, P ref → ∃ object, a.object? ref = some object ∧ object.IsReadable ∧
    ∀ part ∈ object.parts, P part
  keys : ∀ ref refs, P ref → a.object? ref = some (.dictionary refs) → (a.keyTexts refs).Nodup

theorem IsClosed.exists_object (h : a.IsClosed P) (ref : Nat) (href : P ref) :
    ∃ object, a.object? ref = some object ∧ ∀ part ∈ object.parts, P part := by
  obtain ⟨object, hobject, -, hparts⟩ := h.object ref href
  exact ⟨object, hobject, hparts⟩

theorem IsClosed.parts (h : a.IsClosed P) {ref : Nat} (href : P ref) {object : BinaryObject}
    (hobject : a.object? ref = some object) : object.IsReadable ∧ ∀ part ∈ object.parts, P part := by
  obtain ⟨object', hobject', hrest⟩ := h.object ref href
  obtain rfl := Option.some.inj (hobject.symm.trans hobject')
  exact hrest

/-- An object is known by its place or by its value, and a zero by the value of the positive one. -/
theorem identityOf_cases (ref : Nat) (object : BinaryObject) :
    identityOf ref object = .place ref ∨ identityOf ref object = .value object ∨
      ∃ x, object = .real x ∧
        identityOf ref object = .value (.real (.finite false 0 Binary64.leastExponent)) := by
  unfold identityOf
  split
  · exact .inr (.inr ⟨_, rfl, rfl⟩)
  · exact .inl rfl
  · exact .inl rfl
  · exact .inl rfl
  · exact .inl rfl
  · exact .inr (.inl rfl)

/-- References with one identity stand for one object, or for the two zeros. -/
theorem resembles_of_identity_eq {ref ref' : Nat} {object object' : BinaryObject}
    (hobject : a.object? ref = some object) (hobject' : a.object? ref' = some object')
    (h : a.identity ref = a.identity ref') : object.Resembles object' := by
  unfold identity at h
  rw [hobject, hobject'] at h
  change identityOf ref object = identityOf ref' object' at h
  rcases identityOf_cases ref object with hplace | hvalue | ⟨x, rfl, hzero⟩ <;>
    rcases identityOf_cases ref' object' with hplace' | hvalue' | ⟨y, rfl, hzero'⟩
  · rw [hplace, hplace'] at h
    obtain rfl := Identity.place.inj h
    rw [Option.some.inj (hobject.symm.trans hobject')]
    exact .same _
  · rw [hplace, hvalue'] at h
    cases h
  · rw [hplace, hzero'] at h
    cases h
  · rw [hvalue, hplace'] at h
    cases h
  · rw [hvalue, hvalue'] at h
    rw [Identity.value.inj h]
    exact .same _
  · rw [hvalue, hzero'] at h
    rw [Identity.value.inj h]
    exact .real _ _
  · rw [hzero, hplace'] at h
    cases h
  · rw [hzero, hvalue'] at h
    rw [← Identity.value.inj h]
    exact .real _ _
  · exact .real _ _

section Layout

variable (hclosed : a.IsClosed P) (htop : P a.top)
include hclosed htop

/-- A reference that is met has the number of its object. -/
theorem getElem?_numberIn {ref : Nat} (hmet : a.identity ref ∈ a.layout.map (·.1))
    {object : BinaryObject} (hobject : a.object? ref = some object) :
    ∃ object', (a.layout.map (·.2))[a.numberIn ref]? = some object' ∧
      object.Resembles object' := by
  have hplace := List.getElem?_idxOf hmet
  rw [List.getElem?_map, Option.map_eq_some_iff] at hplace
  obtain ⟨entry, hentry, hidentity⟩ := hplace
  obtain ⟨hcome, -, -⟩ := layout_spec hclosed.exists_object htop
  obtain ⟨ref', -, hobject', hidentity'⟩ := hcome entry (List.mem_of_getElem? hentry)
  refine ⟨entry.2, ?_, resembles_of_identity_eq hobject hobject'
    (hidentity.symm.trans hidentity'.symm)⟩
  rw [List.getElem?_map]
  exact Option.map_eq_some_iff.2 ⟨entry, hentry, rfl⟩

theorem numberIn_top : a.numberIn a.top = 0 := by
  obtain ⟨-, -, object, others, hlayout⟩ := layout_spec hclosed.exists_object htop
  rw [numberIn, hlayout, List.map_cons]
  exact List.idxOf_cons_self

theorem exists_of_mem_layout {object : BinaryObject} (h : object ∈ a.layout.map (·.2)) :
    ∃ ref, P ref ∧ a.object? ref = some object := by
  obtain ⟨entry, hentry, rfl⟩ := List.mem_map.1 h
  obtain ⟨hcome, -, -⟩ := layout_spec hclosed.exists_object htop
  obtain ⟨ref, href, hobject, -⟩ := hcome entry hentry
  exact ⟨ref, href, hobject⟩

theorem met_of_mem_parts {object : BinaryObject} (h : object ∈ a.layout.map (·.2)) {part : Nat}
    (hpart : part ∈ object.parts) : a.identity part ∈ a.layout.map (·.1) := by
  obtain ⟨entry, hentry, rfl⟩ := List.mem_map.1 h
  obtain ⟨-, hparts, -⟩ := layout_spec hclosed.exists_object htop
  exact (hparts entry hentry part hpart).elim id nofun

end Layout

theorem numberIn_lt {part : Nat} (h : a.identity part ∈ a.layout.map (·.1)) :
    a.numberIn part < a.layout.length := by
  have hless := List.idxOf_lt_length_iff.2 h
  rwa [List.length_map] at hless

/-! ## The file -/

/-- What is read from the file of an archive. -/
structure IsReread (a a' : Archive) : Prop where
  top : a'.top = 0
  /-- A number that is read is that of the object in the layout. -/
  object : ∀ entry ∈ a'.objects, ∃ object, (a.layout.map (·.2))[entry.1]? = some object ∧
    (object.renumbered a.numberIn).Resembles entry.2
  first : 0 ∈ a'.objects.map (·.1)
  part : ∀ entry ∈ a'.objects, ∀ part ∈ entry.2.parts, part ∈ a'.objects.map (·.1)

/-- The objects of a written archive are read from the file. -/
theorem exists_isReread (hclosed : a.IsClosed P) (htop : P a.top) {out : Bytes}
    (h : a.write = .ok out) :
    ∃ a', a.IsReread a' ∧
      Archive.read out = if a'.hasPlainKeys then some a'.withDistinctKeys else none := by
  obtain ⟨-, parts, hparts, hoffset, rfl⟩ := write_eq_ok h
  have hlength : a.layout.length < 2 ^ 64 := by
    have hsame := hparts.length_eq
    have hle := length_le_length_flatten hparts
    rw [List.length_map] at hsame
    unfold tableOffset at hoffset
    omega
  have hwidth : a.referenceWidth < 256 := by
    unfold referenceWidth
    rcases BinaryObject.widthFor_cases hlength with ⟨h, -⟩ | ⟨h, -⟩ | ⟨h, -⟩ | ⟨h, -⟩ <;> omega
  have hless {object : BinaryObject} (hobject : object ∈ a.layout.map (·.2)) {part : Nat}
      (hpart : part ∈ object.parts) : a.numberIn part < a.layout.length :=
    numberIn_lt (met_of_mem_parts hclosed htop hobject hpart)
  obtain ⟨s, hs, hsourceTop, hsize, hobject⟩ := exists_source (BinaryObject.widthFor_pos _) hwidth
    (fun object hobject => by
      obtain ⟨ref, href, hobject⟩ := exists_of_mem_layout hclosed htop hobject
      exact (hclosed.parts href hobject).1)
    (fun object hobject part hpart =>
      BinaryObject.lt_pow_widthFor_of_le (hless hobject hpart).le hlength) hparts hoffset
  rw [List.length_map] at hsize
  have hpositive : 0 < a.layout.length := by
    obtain ⟨-, -, object, others, hlayout⟩ := layout_spec hclosed.exists_object htop
    rw [hlayout]
    exact Nat.succ_pos _
  have hplace {index : Nat} (hindex : index < a.layout.length) :
      ∃ object, (a.layout.map (·.2))[index]? = some object :=
    ⟨_, List.getElem?_eq_getElem (by rwa [List.length_map])⟩
  obtain ⟨all, hall, -, hreached⟩ := @Source.exists_reached s [0] [] a.layout.length
    (fun index hindex => by
      obtain ⟨object, hplace⟩ := hplace hindex
      obtain ⟨read, hread, hresembles⟩ := hobject index object hplace
      refine ⟨read, hread, fun part hpart => ?_⟩
      rw [hresembles.parts, BinaryObject.parts_renumbered] at hpart
      obtain ⟨old, hold, rfl⟩ := List.mem_map.1 hpart
      exact hless (List.mem_of_getElem? hplace) hold)
    (s.offsets.size + 1) (by simpa using hpositive) nofun List.nodup_nil nofun
    (by rw [hsize]; exact Nat.lt_succ_self _)
  refine ⟨⟨all, 0⟩, ⟨rfl, fun entry hentry => ?_, hreached.ref 0 (List.mem_singleton.2 rfl),
    hreached.part⟩, ?_⟩
  · have hread := hreached.object entry hentry
    have hindex : entry.1 < a.layout.length := by
      by_contra hbeyond
      have hnone : s.offsets[entry.1]? = none := Array.getElem?_eq_none (by omega)
      rw [Source.object?, hnone] at hread
      cases hread
    obtain ⟨object, hplace⟩ := hplace hindex
    obtain ⟨read, hread', hresembles⟩ := hobject entry.1 object hplace
    obtain rfl := Option.some.inj (hread.symm.trans hread')
    exact ⟨object, hplace, hresembles⟩
  · rw [Archive.read, show Source.of (file a.referenceWidth parts) = some s from hs]
    simp only [Option.bind_eq_bind, Option.bind_some, hsourceTop, hall]

/-- A reference with `P` whose object is read. -/
def IsCarried (a : Archive) (P : Nat → Prop) (a' : Archive) (ref : Nat) : Prop :=
  P ref ∧ a.identity ref ∈ a.layout.map (·.1) ∧ a.numberIn ref ∈ a'.objects.map (·.1)

namespace IsReread

variable {a' : Archive} (h : a.IsReread a') (hclosed : a.IsClosed P) (htop : P a.top)
include h hclosed htop

theorem isCarried_of_part {entry : Nat × BinaryObject} (hentry : entry ∈ a'.objects)
    {object : BinaryObject} (hplace : object ∈ a.layout.map (·.2))
    (hobject : (object.renumbered a.numberIn).Resembles entry.2) {part : Nat}
    (hpart : part ∈ object.parts) : a.IsCarried P a' part := by
  obtain ⟨ref, href, hsame⟩ := exists_of_mem_layout hclosed htop hplace
  refine ⟨(hclosed.parts href hsame).2 part hpart, met_of_mem_parts hclosed htop hplace hpart,
    h.part entry hentry _ ?_⟩
  rw [hobject.parts, BinaryObject.parts_renumbered]
  exact List.mem_map_of_mem hpart

theorem object?_numberIn {ref : Nat} (href : a.IsCarried P a' ref) {object : BinaryObject}
    (hobject : a.object? ref = some object) :
    (∃ read, a'.object? (a.numberIn ref) = some read ∧
      (object.renumbered a.numberIn).Resembles read) ∧
      ∀ part ∈ object.parts, a.IsCarried P a' part := by
  obtain ⟨-, hmet, hread⟩ := href
  obtain ⟨placed, hplace, hresembles⟩ := getElem?_numberIn hclosed htop hmet hobject
  obtain ⟨read, hread⟩ := Option.isSome_iff_exists.1 (lookup_isSome.2 hread)
  have hentry := mem_of_lookup hread
  obtain ⟨placed', hplace', hsame⟩ := h.object _ hentry
  obtain rfl := Option.some.inj (hplace.symm.trans hplace')
  refine ⟨⟨read, hread, (hresembles.renumbered _).trans hsame⟩, fun part hpart => ?_⟩
  rw [← hresembles.parts] at hpart
  exact h.isCarried_of_part hclosed htop hentry (List.mem_of_getElem? hplace) hsame hpart

theorem isCarried_top : a.IsCarried P a' a.top := by
  obtain ⟨-, -, object, others, hlayout⟩ := layout_spec hclosed.exists_object htop
  refine ⟨htop, by rw [hlayout]; exact List.mem_cons_self, ?_⟩
  rw [numberIn_top hclosed htop]
  exact h.first

/-- A text that is read is the one that was written. -/
theorem text?_numberIn {ref : Nat} (href : a.IsCarried P a' ref) :
    a'.text? (a.numberIn ref) = a.text? ref := by
  obtain ⟨object, hobject, -⟩ := hclosed.object ref href.1
  obtain ⟨⟨read, hread, hresembles⟩, -⟩ := h.object?_numberIn hclosed htop href hobject
  rw [text?, text?, hread, hobject, Option.bind_some, Option.bind_some, hresembles.text?]
  cases object <;> rfl

/-- A dictionary that is read is one that was written, with its parts by their numbers. -/
theorem exists_dictionary {entry : Nat × BinaryObject} (hentry : entry ∈ a'.objects)
    {refs : List (Nat × Nat)} (hrefs : entry.2 = .dictionary refs) :
    ∃ ref old, P ref ∧ a.object? ref = some (.dictionary old) ∧
      .dictionary old ∈ a.layout.map (·.2) ∧
      refs = old.map (fun pair => (a.numberIn pair.1, a.numberIn pair.2)) ∧
      ∀ pair ∈ old, a.IsCarried P a' pair.1 := by
  obtain ⟨object, hplace, hsame⟩ := h.object entry hentry
  have hmem := List.mem_of_getElem? hplace
  obtain ⟨ref, href, hobject⟩ := exists_of_mem_layout hclosed htop hmem
  have hback := hsame.symm
  rw [hrefs] at hback
  have hdictionary := hback.eq_dictionary
  cases object with
  | dictionary old =>
      have hsplit := BinaryObject.dictionary.inj hdictionary
      exact ⟨ref, old, href, hobject, hmem, hsplit.symm, fun pair hpair =>
        h.isCarried_of_part hclosed htop hentry hmem hsame
          (List.mem_append_left _ (List.mem_map_of_mem hpair))⟩
  | _ => cases hdictionary

theorem hasPlainKeys (hforeign : a.hasForeignKey (a.layout.map (·.2)) = false) :
    a'.hasPlainKeys = true := by
  refine List.all_eq_true.2 fun entry hentry => ?_
  obtain ⟨ref, object⟩ := entry
  cases object <;> try rfl
  next refs =>
  obtain ⟨ref, old, href, hobject, hmem, rfl, hcarried⟩ :=
    h.exists_dictionary hclosed htop hentry rfl
  refine List.all_eq_true.2 fun renamed hrenamed => ?_
  obtain ⟨pair, hpair, rfl⟩ := List.mem_map.1 hrenamed
  -- Every key is a text, or the archive would not have been written.
  have hkey : (a.text? pair.1).isSome = true := by
    have hnone := List.any_eq_false.1 hforeign _ hmem
    simp only [Bool.not_eq_true, List.any_eq_false] at hnone
    simpa using hnone pair hpair
  obtain ⟨t, ht⟩ := Option.isSome_iff_exists.1 hkey
  rw [← h.text?_numberIn hclosed htop (hcarried pair hpair), text?_eq_some] at ht
  simp only [ht]
  rfl

theorem hasDistinctKeys : a'.HasDistinctKeys := by
  intro entry hentry refs hrefs
  obtain ⟨ref, old, href, hobject, -, rfl, hcarried⟩ :=
    h.exists_dictionary hclosed htop hentry hrefs
  have hsame : a'.keyTexts (old.map fun pair => (a.numberIn pair.1, a.numberIn pair.2)) =
      a.keyTexts old := by
    rw [keyTexts, keyTexts, List.filterMap_map]
    exact List.filterMap_congr fun pair hpair =>
      h.text?_numberIn hclosed htop (hcarried pair hpair)
  rw [hsame]
  exact hclosed.keys ref old href hobject

end IsReread

/-- A written archive is read again. -/
theorem exists_read (hclosed : a.IsClosed P) (htop : P a.top) {out : Bytes}
    (h : a.write = .ok out) : ∃ a', Archive.read out = some a' ∧ a.IsReread a' := by
  obtain ⟨a', hreread, hread⟩ := exists_isReread hclosed htop h
  rw [hreread.hasPlainKeys hclosed htop (write_eq_ok h).1, if_pos rfl,
    withDistinctKeys_eq_self (hreread.hasDistinctKeys hclosed htop)] at hread
  exact ⟨a', hread, hreread⟩

/-! ## Values -/

/-- An object whose value is held, and none of whose dictionaries has a key twice. -/
def IsSound (a : Archive) (ref : Nat) : Prop :=
  ∃ value, a.Holds ref value ∧ value.Every Value.HasDistinctKeys

theorem isClosed_isSound : a.IsClosed a.IsSound where
  object := by
    rintro ref ⟨value, hholds, hdistinct⟩
    obtain ⟨object, hobject⟩ := hholds.exists_object
    have hexact := hholds.isExact hobject
    refine ⟨object, hobject, by cases object <;> trivial, ?_⟩
    intro part hpart
    obtain ⟨inner, hinner, -, hevery⟩ := hholds.of_part hobject hpart
    exact ⟨inner, hinner, hevery _ hdistinct⟩
  keys := by
    rintro ref refs ⟨value, hholds, hdistinct⟩ hobject
    obtain ⟨entries, rfl, hall⟩ := hholds.of_dictionary hobject
    rw [keyTexts_of_forall₂ (hall.imp fun _ _ => And.left)]
    exact (every_dictionary.1 hdistinct).1

/-- What a sound object holds is held by the object that is read for it. -/
theorem IsReread.holds {a' : Archive} (h : a.IsReread a') (htop : a.IsSound a.top) {ref : Nat}
    (href : a.IsCarried a.IsSound a' ref) (hholds : a.Holds ref value) :
    a'.Holds (a.numberIn ref) value := by
  refine hholds.map (P := a.IsCarried a.IsSound a') (fun ref object href hobject => ?_) href
  obtain ⟨⟨read, hread, hresembles⟩, hparts⟩ :=
    h.object?_numberIn isClosed_isSound htop href hobject
  obtain ⟨⟨inner, hinner, -⟩, -, -⟩ := href
  have hexact : (object.renumbered a.numberIn).IsExact := by
    have := hinner.isExact hobject
    cases object <;> trivial
  rw [hresembles.eq_of_isExact hexact] at hread
  exact ⟨hread, hparts⟩

/-- A written archive is read as one that holds the same value. -/
theorem read_write (hholds : a.Holds a.top value) (hdistinct : value.Every Value.HasDistinctKeys)
    {out : Bytes} (h : a.write = .ok out) :
    ∃ a', Archive.read out = some a' ∧ a'.Holds a'.top value := by
  have htop : a.IsSound a.top := ⟨value, hholds, hdistinct⟩
  obtain ⟨a', hread, hreread⟩ := exists_read isClosed_isSound htop h
  have hholds' := hreread.holds htop (hreread.isCarried_top isClosed_isSound htop) hholds
  rw [numberIn_top isClosed_isSound htop, ← hreread.top] at hholds'
  exact ⟨a', hread, hholds'⟩

end BundleHook.PropertyList.Archive
