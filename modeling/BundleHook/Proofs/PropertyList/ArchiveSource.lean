import BundleHook.Proofs.PropertyList.BinaryObject
import BundleHook.Proofs.Entries
import BundleHook.Proofs.Outcome
import BundleHook.PropertyList.Archive

/-!
# The source of a written archive

A binary file ends with a trailer, which says where the table of offsets begins. From it the source
of a file is found again, and behind each offset stands the object that was written there. What the
top object reaches is read in rounds, and each of them finds an object that was not known, so that
one round more than there are objects is enough.
-/

namespace BundleHook.PropertyList.Archive

/-! ## Offsets -/

theorem length_offsetsFrom (parts : List Bytes) (start : Nat) :
    (offsetsFrom start parts).length = parts.length := by
  induction parts generalizing start with
  | nil => rfl
  | cons octets parts ih => rw [offsetsFrom, List.length_cons, ih, List.length_cons]

theorem le_of_mem_offsetsFrom {parts : List Bytes} {start offset : Nat}
    (h : offset ∈ offsetsFrom start parts) : offset ≤ start + parts.flatten.length := by
  induction parts generalizing start with
  | nil => cases h
  | cons octets parts ih =>
      rw [List.flatten_cons, List.length_append]
      rcases List.mem_cons.1 h with rfl | h
      · omega
      · have hle := ih h
        omega

/-- Behind the offset of a part stands the part. -/
theorem exists_offset {parts : List Bytes} {index : Nat} {octets : Bytes}
    (h : parts[index]? = some octets) (start : Nat) :
    ∃ offset, (offsetsFrom start parts)[index]? = some offset ∧
      ∀ before behind : Bytes, before.length = start → ∃ rest,
        (before ++ (parts.flatten ++ behind)).drop offset = octets ++ rest := by
  induction parts generalizing index start with
  | nil => cases h
  | cons first parts ih =>
    rw [List.flatten_cons]
    cases index with
    | zero =>
        obtain rfl : first = octets := by simpa using h
        refine ⟨start, rfl, fun before behind hbefore => ⟨parts.flatten ++ behind, ?_⟩⟩
        rw [List.drop_left' hbefore, List.append_assoc]
    | succ index =>
        obtain ⟨offset, hoffset, hbehind⟩ := ih (by simpa using h) (start + first.length)
        refine ⟨offset, hoffset, fun before behind hbefore => ?_⟩
        obtain ⟨rest, hrest⟩ := hbehind (before ++ first) behind
          (by rw [List.length_append, hbefore])
        refine ⟨rest, ?_⟩
        rw [← hrest, List.append_assoc, List.append_assoc]

/-! ## The file -/

/-- The octets in front of the table of offsets. -/
def tableOffset (parts : List Bytes) : Nat := signature.length + parts.flatten.length

/-- The trailer of a file. -/
def trailer (width : Nat) (parts : List Bytes) : Bytes :=
  octetsOf 6 0 ++ octetsOf 1 (BinaryObject.widthFor (tableOffset parts)) ++ octetsOf 1 width ++
    octetsOf 8 parts.length ++ octetsOf 8 0 ++ octetsOf 8 (tableOffset parts)

/-- The file of objects in octets. -/
def file (width : Nat) (parts : List Bytes) : Bytes :=
  signature ++ parts.flatten ++ (offsetsFrom signature.length parts).flatMap
    (octetsOf (BinaryObject.widthFor (tableOffset parts))) ++ trailer width parts

/-- A number in octets is read from between others. -/
theorem numberOf_field {width n start : Nat} (hn : n < Nat.pow 256 width)
    {octets before rest : Bytes} (h : octets = before ++ (octetsOf width n ++ rest))
    (hbefore : before.length = start) :
    numberOf ((octets.drop start).take width) = n := by
  rw [h, List.drop_left' hbefore, take_octetsOf, numberOf_octetsOf width n hn]

section Trailer

variable {width : Nat} {parts : List Bytes}

theorem length_trailer : (trailer width parts).length = trailerLength := by
  simp [trailer, length_octetsOf, trailerLength]

/-- The fields of the trailer, behind its octets that mean nothing. -/
theorem drop_file_fields :
    ((file width parts).drop ((file width parts).length - trailerLength)).drop 6 =
      octetsOf 1 (BinaryObject.widthFor (tableOffset parts)) ++ (octetsOf 1 width ++
        (octetsOf 8 parts.length ++ (octetsOf 8 0 ++ (octetsOf 8 (tableOffset parts) ++ [])))) := by
  rw [file, List.length_append, length_trailer, Nat.add_sub_cancel, List.drop_left, trailer,
    List.append_nil]
  simp only [List.append_assoc]
  exact drop_octetsOf 6 0 _

/-- The table of offsets is read from its place. -/
theorem reads_offsets (hoffset : tableOffset parts < 2 ^ 64) :
    BinaryObject.references? (BinaryObject.widthFor (tableOffset parts)) parts.length
        ((file width parts).drop (tableOffset parts)) =
      some (offsetsFrom signature.length parts, trailer width parts) := by
  have hdrop : (file width parts).drop (tableOffset parts) =
      (offsetsFrom signature.length parts).flatMap
        (octetsOf (BinaryObject.widthFor (tableOffset parts))) ++ trailer width parts := by
    rw [file, List.append_assoc]
    exact List.drop_left' (by rw [List.length_append]; rfl)
  have hreads := @BinaryObject.reads_references (BinaryObject.widthFor (tableOffset parts)) id
    (BinaryObject.widthFor_pos _) (offsetsFrom signature.length parts)
    (fun offset hmem => BinaryObject.lt_pow_widthFor_of_le (le_of_mem_offsetsFrom hmem) hoffset)
    (trailer width parts)
  rw [length_offsetsFrom, List.map_id] at hreads
  rw [hdrop]
  exact hreads

theorem source_of_file (hwidth : width < 256) (hparts : parts.length ≤ parts.flatten.length)
    (hoffset : tableOffset parts < 2 ^ 64) :
    Source.of (file width parts) =
      some ⟨file width parts, (offsetsFrom signature.length parts).toArray, width, 0⟩ := by
  have hlong : ¬(file width parts).length < trailerLength := by
    rw [file, List.length_append, length_trailer]
    omega
  have hfields := @drop_file_fields width parts
  have hoffsets := @reads_offsets width parts hoffset
  have hcount : parts.length < 2 ^ 64 := by
    unfold tableOffset at hoffset
    omega
  have hsmall : BinaryObject.widthFor (tableOffset parts) < 256 := by
    rcases BinaryObject.widthFor_cases hoffset with ⟨h, -⟩ | ⟨h, -⟩ | ⟨h, -⟩ | ⟨h, -⟩ <;> omega
  have hone : Nat.pow 256 1 = 256 := by decide
  have height : Nat.pow 256 8 = 2 ^ 64 := by decide
  generalize BinaryObject.widthFor (tableOffset parts) = offsetWidth at hfields hoffsets hsmall
  unfold Source.of
  rw [if_neg hlong]
  generalize ((file width parts).drop ((file width parts).length - trailerLength)).drop 6 = fields
    at hfields ⊢
  have hfirst : numberOf ((fields.drop 0).take 1) = offsetWidth :=
    @numberOf_field 1 offsetWidth 0 (Nat.lt_of_lt_of_eq hsmall hone.symm) fields [] _ hfields rfl
  have hsecond : numberOf ((fields.drop 1).take 1) = width :=
    @numberOf_field 1 width 1 (Nat.lt_of_lt_of_eq hwidth hone.symm) fields
      (octetsOf 1 offsetWidth) _ hfields rfl
  have hcounted : numberOf ((fields.drop 2).take 8) = parts.length :=
    @numberOf_field 8 parts.length 2 (Nat.lt_of_lt_of_eq hcount height.symm) fields
      (octetsOf 1 offsetWidth ++ octetsOf 1 width) _
      (by simp only [List.append_assoc]; exact hfields) rfl
  have htop : numberOf ((fields.drop 10).take 8) = 0 :=
    @numberOf_field 8 0 10 (by decide) fields
      (octetsOf 1 offsetWidth ++ octetsOf 1 width ++ octetsOf 8 parts.length) _
      (by simp only [List.append_assoc]; exact hfields) rfl
  have htable : numberOf ((fields.drop 18).take 8) = tableOffset parts :=
    @numberOf_field 8 (tableOffset parts) 18 (Nat.lt_of_lt_of_eq hoffset height.symm) fields
      (octetsOf 1 offsetWidth ++ octetsOf 1 width ++ octetsOf 8 parts.length ++ octetsOf 8 0) _
      (by simp only [List.append_assoc]; exact hfields) rfl
  simp only [hfirst, hsecond, hcounted, htop, htable, hoffsets, Option.bind_eq_bind,
    Option.bind_some]
  rfl

end Trailer

/-! ## Objects -/

theorem forall₂_of_writeAll {width : Nat} {number : Nat → Nat} {objects : List BinaryObject}
    {parts : List Bytes} (h : writeAll width number objects = .ok parts) :
    List.Forall₂ (fun object octets => object.write width number = some octets) objects parts := by
  induction objects generalizing parts with
  | nil =>
      obtain rfl := Except.ok.inj h
      exact .nil
  | cons object objects ih =>
      rw [writeAll] at h
      split at h
      · next octets hwrite =>
        obtain ⟨others, hothers, h⟩ := bind_eq_ok.1 h
        obtain rfl := Except.ok.inj h
        exact .cons hwrite (ih hothers)
      · cases h

theorem length_le_length_flatten {width : Nat} {number : Nat → Nat} {objects : List BinaryObject}
    {parts : List Bytes}
    (h : List.Forall₂ (fun object octets => object.write width number = some octets) objects
      parts) :
    parts.length ≤ parts.flatten.length := by
  induction h with
  | nil => exact Nat.le_refl 0
  | cons hwritten _ ih =>
      have hpos := List.length_pos_iff.2 (BinaryObject.ne_nil_of_write hwritten)
      rw [List.flatten_cons, List.length_append, List.length_cons]
      omega

/-- The source of a file gives each object by its number, with the numbers of its parts, except that
numbers with fractions and dates may be rounded. -/
theorem exists_source {width : Nat} {number : Nat → Nat} {objects : List BinaryObject}
    {parts : List Bytes} (hpositive : 0 < width) (hwidth : width < 256)
    (hreadable : ∀ object ∈ objects, object.IsReadable)
    (hnumbers : ∀ object ∈ objects, ∀ part ∈ object.parts, number part < Nat.pow 256 width)
    (hwrite : List.Forall₂ (fun object octets => object.write width number = some octets) objects
      parts)
    (hoffset : tableOffset parts < 2 ^ 64) :
    ∃ s, Source.of (file width parts) = some s ∧ s.top = 0 ∧ s.offsets.size = objects.length ∧
      ∀ index object, objects[index]? = some object → ∃ read, s.object? index = some read ∧
        (object.renumbered number).Resembles read := by
  have hflatten : parts.flatten.length < 2 ^ 64 := by
    unfold tableOffset at hoffset
    omega
  have hread {object : BinaryObject} (hobject : object ∈ objects) {octets : Bytes}
      (hoctets : octets ∈ parts) (hwritten : object.write width number = some octets)
      (rest : Bytes) : ∃ read, BinaryObject.read width (octets ++ rest) = some read ∧
        (object.renumbered number).Resembles read :=
    BinaryObject.exists_read_write (hreadable object hobject) hpositive (hnumbers object hobject)
      hwritten (Nat.lt_of_le_of_lt (List.sublist_flatten_of_mem hoctets).length_le hflatten) rest
  refine ⟨_, source_of_file hwidth (length_le_length_flatten hwrite) hoffset, rfl,
    by simp [length_offsetsFrom, hwrite.length_eq], fun index object hobject => ?_⟩
  obtain ⟨octets, hoctets, hwritten⟩ := getElem?_of_forall₂ hwrite hobject
  obtain ⟨offset, hplace, hbehind⟩ := exists_offset hoctets signature.length
  obtain ⟨rest, hrest⟩ := hbehind signature ((offsetsFrom signature.length parts).flatMap
    (octetsOf (BinaryObject.widthFor (tableOffset parts))) ++ trailer width parts) rfl
  have hfile : (file width parts).drop offset = octets ++ rest := by
    rw [← hrest, file, List.append_assoc, List.append_assoc]
  simp only [Source.object?, List.getElem?_toArray, hplace, Option.bind_eq_bind, Option.bind_some,
    hfile]
  exact hread (List.mem_of_getElem? hobject) (List.mem_of_getElem? hoctets) hwritten rest

/-! ## Rounds -/

namespace Source

variable {s : Source} {refs : List Nat} {known all : List (Nat × BinaryObject)}

/-- The objects are those of their references, and they are all that references and their parts
reach. -/
structure IsReached (s : Source) (refs : List Nat) (all : List (Nat × BinaryObject)) : Prop where
  object : ∀ entry ∈ all, s.object? entry.1 = some entry.2
  ref : ∀ ref ∈ refs, ref ∈ all.map (·.1)
  part : ∀ entry ∈ all, ∀ part ∈ entry.2.parts, part ∈ all.map (·.1)

/-- The references that are not known yet. -/
def fresh (known : List (Nat × BinaryObject)) (refs : List Nat) : List Nat :=
  refs.eraseDups.filter fun ref => (known.lookup ref).isNone

theorem mem_fresh {ref : Nat} : ref ∈ fresh known refs ↔ ref ∈ refs ∧ ref ∉ known.map (·.1) := by
  rw [fresh, List.mem_filter, List.mem_eraseDups, Option.isNone_iff_eq_none,
    ← Option.not_isSome_iff_eq_none, lookup_isSome]

theorem mem_append_fresh (known : List (Nat × BinaryObject)) {ref : Nat} (href : ref ∈ refs) :
    ref ∈ known.map (·.1) ++ fresh known refs := by
  rw [List.mem_append, mem_fresh]
  by_cases hold : ref ∈ known.map (·.1)
  · exact .inl hold
  · exact .inr ⟨href, hold⟩

theorem nodup_fresh (known : List (Nat × BinaryObject)) (refs : List Nat) :
    (fresh known refs).Nodup := (nodup_eraseDups refs).filter _

theorem reached_of_fresh_eq_nil (h : fresh known refs = []) (rounds : Nat) :
    s.reached rounds known refs = some known := by
  unfold fresh at h
  cases rounds <;> rw [reached, h]

theorem isReached_of_fresh_eq_nil (h : fresh known refs = [])
    (hknown : ∀ entry ∈ known, s.object? entry.1 = some entry.2)
    (hclosed : ∀ entry ∈ known, ∀ part ∈ entry.2.parts, part ∈ known.map (·.1) ∨ part ∈ refs) :
    s.IsReached refs known := by
  have hold {ref : Nat} (href : ref ∈ refs) : ref ∈ known.map (·.1) := by
    simpa [h] using mem_append_fresh known href
  exact ⟨hknown, fun _ => hold,
    fun entry hentry part hpart => (hclosed entry hentry part hpart).elim id hold⟩

theorem reached_succ (h : fresh known refs ≠ []) (rounds : Nat) :
    s.reached (rounds + 1) known refs = (do
      let objects ← (fresh known refs).mapM fun ref => do return (ref, ← s.object? ref)
      s.reached rounds (known ++ objects) (objects.flatMap (·.2.parts))) := by
  unfold fresh at h ⊢
  rw [reached]
  split
  · next hnil => exact absurd hnil h
  · next ref others hcons => rw [hcons]

theorem exists_objects {news : List Nat} (h : ∀ ref ∈ news, ∃ object, s.object? ref = some object) :
    ∃ objects, (news.mapM fun ref => do return (ref, ← s.object? ref)) = some objects ∧
      objects.map (·.1) = news ∧ ∀ entry ∈ objects, s.object? entry.1 = some entry.2 := by
  induction news with
  | nil => exact ⟨[], rfl, rfl, nofun⟩
  | cons ref news ih =>
      obtain ⟨⟨object, hobject⟩, hnews⟩ := List.forall_mem_cons.1 h
      obtain ⟨objects, hmap, hrefs, hobjects⟩ := ih hnews
      refine ⟨(ref, object) :: objects, ?_, by rw [List.map_cons, hrefs],
        List.forall_mem_cons.2 ⟨hobject, hobjects⟩⟩
      rw [List.mapM_cons, hmap, hobject]
      rfl

/-- Where the parts of all objects are below their number, what references reach is read. -/
theorem exists_reached {n : Nat}
    (hobjects : ∀ index < n, ∃ object, s.object? index = some object ∧
      ∀ part ∈ object.parts, part < n)
    {rounds : Nat} (hrefs : ∀ ref ∈ refs, ref < n)
    (hknown : ∀ entry ∈ known, entry.1 < n ∧ s.object? entry.1 = some entry.2)
    (hnodup : (known.map (·.1)).Nodup)
    (hclosed : ∀ entry ∈ known, ∀ part ∈ entry.2.parts, part ∈ known.map (·.1) ∨ part ∈ refs)
    (hrounds : n < rounds + known.length) :
    ∃ all, s.reached rounds known refs = some all ∧ known <+: all ∧ s.IsReached refs all := by
  induction rounds generalizing known refs with
  | zero =>
      -- There are no more references than objects.
      have hsubset : known.map (·.1) ⊆ List.range n := fun ref href => by
        obtain ⟨entry, hentry, rfl⟩ := List.mem_map.1 href
        exact List.mem_range.2 (hknown entry hentry).1
      have hless := hnodup.length_le_of_subset hsubset
      rw [List.length_map, List.length_range] at hless
      omega
  | succ rounds ih =>
    by_cases hfresh : fresh known refs = []
    · exact ⟨known, reached_of_fresh_eq_nil hfresh _, List.prefix_rfl,
        isReached_of_fresh_eq_nil hfresh (fun entry hentry => (hknown entry hentry).2) hclosed⟩
    · have hbelow (ref : Nat) (href : ref ∈ fresh known refs) : ref < n :=
        hrefs ref (mem_fresh.1 href).1
      obtain ⟨objects, hmap, hfirsts, hnews⟩ := exists_objects (s := s) fun ref href =>
        (hobjects ref (hbelow ref href)).imp fun _ => And.left
      have hobject (entry : Nat × BinaryObject) (hentry : entry ∈ objects) : entry.1 < n :=
        hbelow _ (hfirsts ▸ List.mem_map_of_mem hentry)
      have hlength : 0 < objects.length := by
        rw [← List.length_map (·.1), hfirsts]
        exact List.length_pos_iff.2 hfresh
      obtain ⟨all, hall, hbegins, hreached⟩ := @ih (objects.flatMap (·.2.parts)) (known ++ objects)
        (fun ref href => by
          obtain ⟨entry, hentry, hpart⟩ := List.mem_flatMap.1 href
          obtain ⟨object, hsame, hparts⟩ := hobjects _ (hobject entry hentry)
          obtain rfl := Option.some.inj (hsame.symm.trans (hnews entry hentry))
          exact hparts ref hpart)
        (fun entry hentry => (List.mem_append.1 hentry).elim (hknown entry)
          fun hentry => ⟨hobject entry hentry, hnews entry hentry⟩)
        (by
          rw [List.map_append, hfirsts]
          exact hnodup.append (nodup_fresh known refs) fun ref hold hnew =>
            (mem_fresh.1 hnew).2 hold)
        (fun entry hentry part hpart => by
          rw [List.map_append, hfirsts]
          rcases List.mem_append.1 hentry with hentry | hentry
          · exact .inl ((hclosed entry hentry part hpart).elim
              (fun hold => List.mem_append_left _ hold) (mem_append_fresh known))
          · exact .inr (List.mem_flatMap.2 ⟨entry, hentry, hpart⟩))
        (by rw [List.length_append]; omega)
      refine ⟨all, ?_, (List.prefix_append _ _).trans hbegins, hreached.object, fun ref href => ?_,
        hreached.part⟩
      · rw [reached_succ hfresh, hmap]
        exact hall
      · refine (hbegins.map (·.1)).subset ?_
        rw [List.map_append, hfirsts]
        exact mem_append_fresh known href

end Source

end BundleHook.PropertyList.Archive
