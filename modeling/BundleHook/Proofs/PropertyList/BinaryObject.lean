import BundleHook.Proofs.PropertyList.BinaryDate
import BundleHook.Proofs.PropertyList.Octets

/-!
# Objects are read as they are written

An object that is written with its parts by their numbers is read again with these numbers for its
parts, whatever stands behind it. Numbers with fractions and dates may be rounded.

* `reads_sized` — the size of an object, in its marker or behind it;
* `reads_write` — an object of any kind that is exact;
* `exists_read_write` — any object that can be read at all.
-/

namespace BundleHook.PropertyList.BinaryObject

open Utf8 (toNat_ofNat_of_lt)

/-- The object with other references. -/
def renumbered (number : Nat → Nat) : BinaryObject → BinaryObject
  | array items => array (items.map number)
  | dictionary entries => dictionary (entries.map fun entry => (number entry.1, number entry.2))
  | object => object

@[simp] theorem renumbered_id (o : BinaryObject) : o.renumbered id = o := by
  cases o <;> simp [renumbered]

theorem parts_renumbered (number : Nat → Nat) (o : BinaryObject) :
    (o.renumbered number).parts = o.parts.map number := by
  cases o <;> simp [renumbered, parts, Function.comp_def]

/-- The object is written and read without rounding, and is no identifier. -/
def IsExact : BinaryObject → Prop
  | real _ | date _ | identifier _ => False
  | _ => True

/-- The objects are the same, or two numbers with fractions or two dates. -/
inductive Resembles : BinaryObject → BinaryObject → Prop where
  | same (o : BinaryObject) : Resembles o o
  | real (x y : Binary64) : Resembles (real x) (real y)
  | date (m n : Int) : Resembles (date m) (date n)

/-- The object is such as can be read: a date is one of a double, and an identifier has a form of at
most 64 bits. -/
def IsReadable : BinaryObject → Prop
  | date microseconds => ∃ word, microseconds? (.ofWord word) = some microseconds
  | identifier n => n < 2 ^ 64
  | _ => True

namespace Resembles

variable {o o' o'' : BinaryObject}

theorem symm (h : o.Resembles o') : o'.Resembles o := by
  cases h with
  | same => exact .same _
  | real x y => exact .real y x
  | date m n => exact .date n m

theorem trans (h : o.Resembles o') (h' : o'.Resembles o'') : o.Resembles o'' := by
  cases h with
  | same => exact h'
  | real x y => cases h' <;> exact .real x _
  | date m n => cases h' <;> exact .date m _

theorem parts (h : o.Resembles o') : o'.parts = o.parts := by
  cases h <;> rfl

theorem text? (h : o.Resembles o') : o'.text? = o.text? := by
  cases h <;> rfl

theorem renumbered (h : o.Resembles o') (number : Nat → Nat) :
    (o.renumbered number).Resembles (o'.renumbered number) := by
  cases h with
  | same => exact .same _
  | real x y => exact .real x y
  | date m n => exact .date m n

theorem eq_of_isExact (h : o.Resembles o') (hexact : o.IsExact) : o' = o := by
  cases h with
  | same => rfl
  | real | date => exact hexact.elim

theorem eq_dictionary {refs : List (Nat × Nat)} (h : (dictionary refs).Resembles o') :
    o' = dictionary refs := by
  cases h
  rfl

end Resembles

/-! ## Pieces -/

theorem split?_append {count : Nat} {taken : Bytes} (h : taken.length = count) (rest : Bytes) :
    split? count (taken ++ rest) = some (taken, rest) := by
  subst h
  simp [split?]

/-- A size is read from the marker that it is written in, or from behind it. -/
theorem reads_sized {high size : Nat} (hhigh : high < 16) (hsize : size < 2 ^ 64) (rest : Bytes) :
    ∃ marker behind, sized high size ++ rest = marker :: behind ∧ marker.toNat / 16 = high ∧
      size? (marker.toNat % 16) behind = some (size, rest) := by
  unfold sized
  split
  · next hsmall =>
    have hmarker := toNat_ofNat_of_lt (show high * 16 + size < 256 by omega)
    refine ⟨_, rest, rfl, by omega, ?_⟩
    have hlow : (UInt8.ofNat (high * 16 + size)).toNat % 16 = size := by omega
    rw [hlow, size?, if_pos hsmall]
  · have hmarker := toNat_ofNat_of_lt (show high * 16 + 15 < 256 by omega)
    obtain ⟨hlog, hshift⟩ := one_shiftLeft_log2_widthFor hsize
    have hwidth := toNat_ofNat_of_lt (show 0x10 + (widthFor size).log2 < 256 by omega)
    refine ⟨_, UInt8.ofNat (0x10 + (widthFor size).log2) :: (octetsOf (widthFor size) size ++ rest),
      rfl, by omega, ?_⟩
    have hlow : (UInt8.ofNat (high * 16 + 15)).toNat % 16 = 15 := by omega
    have hnumber : numberOf [UInt8.ofNat (0x10 + (widthFor size).log2)] % 4 =
        (widthFor size).log2 := by
      simp only [numberOf, List.foldl_cons, List.foldl_nil, hwidth]
      omega
    have hone := @split?_append 1 [UInt8.ofNat (0x10 + (widthFor size).log2)] rfl
      (octetsOf (widthFor size) size ++ rest)
    have hmany := split?_append (length_octetsOf (widthFor size) size) rest
    simp only [List.singleton_append] at hone
    rw [hlow, size?, if_neg (Nat.lt_irrefl 15)]
    simp only [hone, Option.bind_eq_bind, Option.bind_some, hnumber, hshift, hmany,
      numberOf_octetsOf _ _ (lt_pow_widthFor hsize)]
    rfl

section References

variable {width : Nat} {number : Nat → Nat}

theorem go_references {refs : List Nat} (hrefs : ∀ ref ∈ refs, number ref < Nat.pow 256 width)
    (rest : Bytes) :
    references?.go width refs.length ((refs.flatMap fun ref => octetsOf width (number ref)) ++ rest) =
      refs.map number := by
  induction refs with
  | nil => rfl
  | cons ref refs ih =>
      obtain ⟨href, hrefs⟩ := List.forall_mem_cons.1 hrefs
      rw [List.length_cons, List.flatMap_cons, List.append_assoc, references?.go, take_octetsOf,
        drop_octetsOf, numberOf_octetsOf _ _ href, ih hrefs, List.map_cons]

theorem length_flatMap_octetsOf (refs : List Nat) :
    (refs.flatMap fun ref => octetsOf width (number ref)).length = width * refs.length := by
  induction refs with
  | nil => rfl
  | cons ref refs ih =>
      rw [List.flatMap_cons, List.length_append, ih, length_octetsOf, List.length_cons,
        Nat.mul_succ, Nat.add_comm]

theorem reads_references (hwidth : 0 < width) {refs : List Nat}
    (hrefs : ∀ ref ∈ refs, number ref < Nat.pow 256 width) (rest : Bytes) :
    references? width refs.length
        ((refs.flatMap fun ref => octetsOf width (number ref)) ++ rest) =
      some (refs.map number, rest) := by
  have hgo := go_references hrefs []
  rw [List.append_nil] at hgo
  unfold references?
  rw [if_neg (Nat.ne_of_gt hwidth), split?_append (length_flatMap_octetsOf refs)]
  simp only [Option.bind_eq_bind, Option.bind_some, hgo]
  rfl

end References

/-! ## Kinds -/

section Kinds

variable {width : Nat} {marker : UInt8} {rest : Bytes}

/-- A marker with high bits above 3 is none of those that are an object by themselves. -/
theorem ne_of_high {high : Nat} (h : marker.toNat / 16 = high) (hhigh : 3 < high) :
    marker ≠ 0x00 ∧ marker ≠ 0x08 ∧ marker ≠ 0x09 ∧ marker ≠ 0x0F ∧ marker ≠ 0x22 ∧
      marker ≠ 0x23 ∧ marker ≠ 0x33 := by
  refine ⟨?_, ?_, ?_, ?_, ?_, ?_, ?_⟩ <;> rintro rfl <;> revert h <;> simp <;> omega

theorem read_data (h : marker.toNat / 16 = 0x4) :
    read width (marker :: rest) = (do
      let (size, rest) ← size? (marker.toNat % 16) rest
      return data (← split? size rest).1) := by
  simp [read, h, ne_of_high h]

theorem read_narrowText (h : marker.toNat / 16 = 0x5) :
    read width (marker :: rest) = (do
      let (size, rest) ← size? (marker.toNat % 16) rest
      return text (← narrowText? (← split? size rest).1)) := by
  simp [read, h, ne_of_high h]

theorem read_wideText (h : marker.toNat / 16 = 0x6) :
    read width (marker :: rest) = (do
      let (size, rest) ← size? (marker.toNat % 16) rest
      return text (← wideText? (← split? (2 * size) rest).1)) := by
  simp [read, h, ne_of_high h]

theorem read_array (h : marker.toNat / 16 = 0xA) :
    read width (marker :: rest) = (do
      let (size, rest) ← size? (marker.toNat % 16) rest
      return array (← references? width size rest).1) := by
  simp [read, h, ne_of_high h]

theorem read_dictionary (h : marker.toNat / 16 = 0xD) :
    read width (marker :: rest) = (do
      let (size, rest) ← size? (marker.toNat % 16) rest
      let (keys, rest) ← references? width size rest
      let (values, _) ← references? width size rest
      return dictionary (keys.zip values)) := by
  simp [read, h, ne_of_high h]

end Kinds

/-! ## Integers -/

/-- An integer is read from a marker for its width and the octets behind it. -/
theorem read_integer {width low : Nat} (hlow : low < 16) {octets : Bytes}
    (hlength : octets.length = 1 <<< low) (rest : Bytes) :
    read width (UInt8.ofNat (0x10 + low) :: (octets ++ rest)) =
      some (integer (if 3 ≤ low then signedOf octets else numberOf octets)) := by
  have hmarker := toNat_ofNat_of_lt (show 0x10 + low < 256 by omega)
  have hhigh : (UInt8.ofNat (0x10 + low)).toNat / 16 = 1 := by omega
  have hrest : (UInt8.ofNat (0x10 + low)).toNat % 16 = low := by omega
  have hne (k : UInt8) (hk : k.toNat / 16 ≠ 1) : UInt8.ofNat (0x10 + low) ≠ k := by
    intro heq
    rw [heq] at hhigh
    exact hk hhigh
  have htake : (octets ++ rest).take (1 <<< low) = octets := by
    rw [← hlength, List.take_left]
  simp only [read, hne 0x00 (by decide), hne 0x08 (by decide), hne 0x09 (by decide),
    hne 0x0F (by decide), if_false, hhigh, if_true, hrest, htake]

theorem read_integerOctets {width : Nat} {n : Int} {octets : Bytes}
    (h : integerOctets n = some octets) (rest : Bytes) :
    read width (octets ++ rest) = some (integer n) := by
  unfold integerOctets at h
  split at h
  · next hnegative =>
    split at h
    · next hlow =>
      obtain rfl := Option.some.inj h
      have hbound : (-(1 <<< 63 : Nat) : Int) = -9223372036854775808 := by decide
      have hshift : ((1 <<< 64 : Nat) : Int) = 18446744073709551616 := by decide
      rw [hbound] at hlow
      rw [hshift]
      have hpow : Nat.pow 256 8 = 18446744073709551616 := by decide
      have hread := @read_integer width 3 (by decide) (octetsOf 8 (n + 18446744073709551616).toNat)
        (length_octetsOf _ _) rest
      rw [if_pos (Nat.le_refl 3), signedOf_octetsOf_of_le (by omega) (by omega), hpow] at hread
      refine hread.trans (congrArg (fun m => some (integer m)) ?_)
      omega
    · cases h
  · next hpositive =>
    obtain ⟨m, rfl⟩ := Int.eq_ofNat_of_zero_le (Int.not_lt.1 hpositive)
    simp only [Int.toNat_natCast] at h
    split at h
    · next hsmall =>
      obtain rfl := Option.some.inj h
      have hm : m < 2 ^ 63 := hsmall
      obtain ⟨hlog, hshift⟩ := one_shiftLeft_log2_widthFor (n := m) (by omega)
      have hread := @read_integer width (widthFor m).log2 (by omega) (octetsOf (widthFor m) m)
        ((length_octetsOf _ _).trans hshift.symm) rest
      refine hread.trans (congrArg (fun m => some (integer m)) ?_)
      split
      · next hwide =>
        -- Eight octets hold twice as much as a number of this size.
        refine signedOf_octetsOf ?_
        have hpow : Nat.pow 256 8 = 18446744073709551616 := by decide
        rcases widthFor_cases (show m < 2 ^ 64 by omega) with ⟨hw, -⟩ | ⟨hw, -⟩ | ⟨hw, -⟩ | ⟨hw, -⟩
        · exact absurd hwide (hw ▸ by decide)
        · exact absurd hwide (hw ▸ by decide)
        · exact absurd hwide (hw ▸ by decide)
        · rw [hw]
          omega
      · exact congrArg Int.ofNat (numberOf_octetsOf _ _ (lt_pow_widthFor (by omega)))
    · split at h
      · next hlarge =>
        obtain rfl := Option.some.inj h
        have hm : m < 2 ^ 64 := hlarge
        have hpow : Nat.pow 256 16 = 340282366920938463463374607431768211456 := by decide
        have hread := @read_integer width 4 (by decide) (octetsOf 16 m) (length_octetsOf _ _) rest
        rw [if_pos (by decide), signedOf_octetsOf (by omega)] at hread
        exact hread
      · cases h

/-! ## Objects -/

theorem le_length_sized_append (high size : Nat) (body : Bytes) :
    body.length < (sized high size ++ body).length := by
  unfold sized
  split <;> simp <;> omega

theorem ne_nil_of_write {o : BinaryObject} {width : Nat} {number : Nat → Nat} {octets : Bytes}
    (h : o.write width number = some octets) : octets ≠ [] := by
  have hsized (high size : Nat) (body : Bytes) : sized high size ++ body ≠ [] := fun heq =>
    Nat.not_lt_zero _ (heq ▸ le_length_sized_append high size body)
  cases o with
  | integer n =>
      rintro rfl
      simp only [write, integerOctets] at h
      split at h
      · split at h <;> cases h
      · split at h
        · cases h
        · split at h <;> cases h
  | text t =>
      obtain rfl := Option.some.inj h
      unfold textOctets
      split <;> exact hsized _ _ _
  | flag value => cases value <;> obtain rfl := Option.some.inj h <;> exact List.cons_ne_nil _ _
  | data contents =>
      obtain rfl := Option.some.inj h
      exact hsized _ _ _
  | array items | dictionary entries =>
      obtain rfl := Option.some.inj h
      exact hsized _ _ _
  | null | real x | date microseconds | identifier n =>
      obtain rfl := Option.some.inj h
      exact List.cons_ne_nil _ _

theorem read_sizedData {width : Nat} {contents : Bytes} (hsize : contents.length < 2 ^ 64)
    (rest : Bytes) :
    read width (sized 0x4 contents.length ++ contents ++ rest) = some (data contents) := by
  obtain ⟨marker, behind, hsized, hhigh, hread⟩ :=
    @reads_sized 0x4 contents.length (by decide) hsize (contents ++ rest)
  rw [List.append_assoc, hsized, read_data hhigh, hread]
  simp only [Option.bind_eq_bind, Option.bind_some, split?_append rfl]
  rfl

/-- A text is read from the narrow form or the wide one, in the one that it is written in. -/
theorem read_textOctets {width : Nat} {t : Text} (hlength : (textOctets t).length < 2 ^ 64)
    (rest : Bytes) : read width (textOctets t ++ rest) = some (text t) := by
  unfold textOctets at hlength ⊢
  split
  · next hnarrow =>
    rw [if_pos hnarrow] at hlength
    have hsize := Nat.lt_trans (le_length_sized_append 0x5 t.length _) hlength
    rw [List.length_map] at hsize
    obtain ⟨marker, behind, hsized, hhigh, hread⟩ := @reads_sized 0x5 t.length (by decide) hsize
      ((t.map fun c => UInt8.ofNat c.toNat) ++ rest)
    rw [List.append_assoc, hsized, read_narrowText hhigh, hread]
    simp only [Option.bind_eq_bind, Option.bind_some,
      split?_append (@List.length_map _ _ t fun c => UInt8.ofNat c.toNat),
      narrowText?_map hnarrow]
    rfl
  · next hwide =>
    rw [if_neg hwide] at hlength
    obtain ⟨units, hunits⟩ := length_wideOctets t
    have hhalf : (t.flatMap wideOctets).length / 2 = units := by omega
    simp only [hhalf] at hlength ⊢
    have hsize := Nat.lt_trans (le_length_sized_append 0x6 units _) hlength
    obtain ⟨marker, behind, hsized, hhigh, hread⟩ := @reads_sized 0x6 units (by decide)
      (by omega) (t.flatMap wideOctets ++ rest)
    rw [List.append_assoc, hsized, read_wideText hhigh, hread]
    simp only [Option.bind_eq_bind, Option.bind_some, split?_append hunits, wideText?_flatMap]
    rfl

section References

variable {width : Nat} (hwidth : 0 < width) {number : Nat → Nat}

include hwidth

theorem read_sizedReferences {items : List Nat} (hsize : items.length < 2 ^ 64)
    (hparts : ∀ ref ∈ items, number ref < Nat.pow 256 width) (rest : Bytes) :
    read width (sized 0xA items.length ++
        (items.flatMap fun ref => octetsOf width (number ref)) ++ rest) =
      some (array (items.map number)) := by
  obtain ⟨marker, behind, hsized, hhigh, hread⟩ := @reads_sized 0xA items.length (by decide)
    hsize ((items.flatMap fun ref => octetsOf width (number ref)) ++ rest)
  rw [List.append_assoc, hsized, read_array hhigh, hread]
  simp only [Option.bind_eq_bind, Option.bind_some, reads_references hwidth hparts rest]
  rfl

/-- The keys are read first, then as many values. -/
theorem read_sizedEntries {entries : List (Nat × Nat)} (hsize : entries.length < 2 ^ 64)
    (hparts : ∀ ref ∈ (dictionary entries).parts, number ref < Nat.pow 256 width) (rest : Bytes) :
    read width (sized 0xD entries.length ++
        ((dictionary entries).parts.flatMap fun ref => octetsOf width (number ref)) ++ rest) =
      some ((dictionary entries).renumbered number) := by
  obtain ⟨hkeys, hvalues⟩ := List.forall_mem_append.1 hparts
  obtain ⟨marker, behind, hsized, hhigh, hread⟩ := @reads_sized 0xD entries.length (by decide)
    hsize (((dictionary entries).parts.flatMap fun ref => octetsOf width (number ref)) ++ rest)
  have hfirst := @reads_references width number hwidth (entries.map (·.1)) hkeys
    (((entries.map (·.2)).flatMap fun ref => octetsOf width (number ref)) ++ rest)
  have hsecond := @reads_references width number hwidth (entries.map (·.2)) hvalues rest
  rw [List.length_map] at hfirst hsecond
  rw [List.append_assoc, hsized, read_dictionary hhigh, hread]
  simp only [Option.bind_eq_bind, Option.bind_some, parts, List.flatMap_append,
    List.append_assoc, hfirst, hsecond, List.map_map, List.zip_map', renumbered]
  rfl

/-- References take an octet each, at the least. -/
theorem length_lt_of_references {refs : List Nat} {high size bound : Nat}
    (h : (sized high size ++ refs.flatMap fun ref => octetsOf width (number ref)).length < bound) :
    refs.length < bound := by
  have hbody := Nat.lt_trans (le_length_sized_append high size _) h
  rw [length_flatMap_octetsOf] at hbody
  exact Nat.lt_of_le_of_lt (Nat.le_mul_of_pos_left _ hwidth) hbody

end References

/-- An exact object is read from the octets that it is written in. -/
theorem reads_write {o : BinaryObject} (hexact : o.IsExact) {width : Nat} (hwidth : 0 < width)
    {number : Nat → Nat} (hparts : ∀ ref ∈ o.parts, number ref < Nat.pow 256 width)
    {octets : Bytes} (hwrite : o.write width number = some octets)
    (hlength : octets.length < 2 ^ 64) (rest : Bytes) :
    read width (octets ++ rest) = some (o.renumbered number) := by
  cases o with
  | null =>
      obtain rfl := Option.some.inj hwrite
      rfl
  | flag value =>
      cases value <;> obtain rfl := Option.some.inj hwrite <;> rfl
  | integer n => exact read_integerOctets hwrite rest
  | real x => exact hexact.elim
  | date microseconds => exact hexact.elim
  | identifier n => exact hexact.elim
  | data contents =>
      obtain rfl := Option.some.inj hwrite
      exact read_sizedData
        (Nat.lt_trans (le_length_sized_append 0x4 contents.length contents) hlength) rest
  | text t =>
      obtain rfl := Option.some.inj hwrite
      exact read_textOctets hlength rest
  | array items =>
      obtain rfl := Option.some.inj hwrite
      exact read_sizedReferences hwidth (length_lt_of_references hwidth hlength) hparts rest
  | dictionary entries =>
      obtain rfl := Option.some.inj hwrite
      have hsize := length_lt_of_references hwidth hlength
      rw [parts, List.length_append, List.length_map] at hsize
      exact read_sizedEntries hwidth (Nat.lt_of_le_of_lt (Nat.le_add_right _ _) hsize) hparts rest

/-! ## Objects that can be read -/

section Readable

variable {width : Nat} {marker : UInt8} {rest : Bytes}

theorem read_real (octets : Bytes) (hlength : octets.length = 8) :
    read width (0x23 :: (octets ++ rest)) = some (real (.ofWord (numberOf octets))) := by
  simp [read, split?_append hlength]

theorem read_date (octets : Bytes) (hlength : octets.length = 8) :
    read width (0x33 :: (octets ++ rest)) =
      (microseconds? (.ofWord (numberOf octets))).map date := by
  simp [read, split?_append hlength, Option.map_eq_bind]

theorem read_identifier (h : marker.toNat / 16 = 0x8) :
    read width (marker :: rest) =
      let value := numberOf (rest.take (marker.toNat % 16 + 1))
      if value < 1 <<< 64 then some (identifier value) else none := by
  simp [read, h, ne_of_high h]

theorem read_identifierOctets {n : Nat} (hn : n < 2 ^ 64) (rest : Bytes) :
    read width (identifierOctets n ++ rest) = some (identifier n) := by
  have hpos := widthFor_pos n
  have hwidth : widthFor n ≤ 8 := by
    rcases widthFor_cases hn with ⟨h, -⟩ | ⟨h, -⟩ | ⟨h, -⟩ | ⟨h, -⟩ <;> omega
  have hmarker := toNat_ofNat_of_lt (show 0x80 + (widthFor n - 1) < 256 by omega)
  have hlow : (UInt8.ofNat (0x80 + (widthFor n - 1))).toNat % 16 + 1 = widthFor n := by omega
  have hnumber : numberOf ((octetsOf (widthFor n) n ++ rest).take (widthFor n)) = n := by
    rw [take_octetsOf, numberOf_octetsOf _ _ (lt_pow_widthFor hn)]
  unfold identifierOctets
  rw [List.cons_append, read_identifier (by omega), hlow]
  simp only [hnumber]
  exact if_pos hn

/-- The objects among the results can all be read. -/
def AllReadable (result : Option BinaryObject) : Prop := ∀ o, result = some o → o.IsReadable

theorem allReadable_some {o : BinaryObject} (h : o.IsReadable) : AllReadable (some o) := by
  rintro _ ⟨⟩
  exact h

theorem allReadable_ite {c : Prop} [Decidable c] {x y : Option BinaryObject}
    (hx : c → AllReadable x) (hy : AllReadable y) : AllReadable (if c then x else y) := by
  split
  · next hc => exact hx hc
  · exact hy

theorem allReadable_bind {α : Type} {x : Option α} {next : α → Option BinaryObject}
    (h : ∀ a, x = some a → AllReadable (next a)) : AllReadable (x.bind next) := by
  intro o ho
  obtain ⟨a, ha, ho⟩ := Option.bind_eq_some_iff.1 ho
  exact h a ha o ho

theorem allReadable_none : AllReadable none := fun _ h => nomatch h

/-- What is read can be read again. -/
theorem allReadable_read (octets : Bytes) : AllReadable (read width octets) := by
  cases octets with
  | nil => exact allReadable_none
  | cons marker rest =>
    -- One case for each kind of marker, in the order in which they are tried.
    refine allReadable_ite ?null (allReadable_ite ?no (allReadable_ite ?yes (allReadable_ite ?empty
      (allReadable_ite ?integer (allReadable_ite ?real (allReadable_ite ?double (allReadable_ite ?date
      (allReadable_ite ?data (allReadable_ite ?narrow (allReadable_ite ?wide
      (allReadable_ite ?identifier (allReadable_ite ?array (allReadable_ite ?dictionary
      allReadable_none)))))))))))))
    case null | no | yes | empty | integer => exact fun _ => allReadable_some trivial
    case real | double => exact fun _ => allReadable_bind fun _ _ => allReadable_some trivial
    case date =>
      exact fun _ => allReadable_bind fun _ _ => allReadable_bind fun _ hdate =>
        allReadable_some ⟨_, hdate⟩
    case data | array =>
      exact fun _ => allReadable_bind fun _ _ => allReadable_bind fun _ _ =>
        allReadable_some trivial
    case narrow | wide | dictionary =>
      exact fun _ => allReadable_bind fun _ _ => allReadable_bind fun _ _ => allReadable_bind
        fun _ _ => allReadable_some trivial
    case identifier =>
      exact fun _ => allReadable_ite (fun hsmall => allReadable_some hsmall) allReadable_none

end Readable

/-- An object that can be read is read from the octets that it is written in, except that a number
with a fraction or a date may be rounded. -/
theorem exists_read_write {o : BinaryObject} (hreadable : o.IsReadable) {width : Nat}
    (hwidth : 0 < width) {number : Nat → Nat}
    (hparts : ∀ ref ∈ o.parts, number ref < Nat.pow 256 width) {octets : Bytes}
    (hwrite : o.write width number = some octets) (hlength : octets.length < 2 ^ 64)
    (rest : Bytes) :
    ∃ o', read width (octets ++ rest) = some o' ∧ (o.renumbered number).Resembles o' := by
  cases o with
  | real x =>
      obtain rfl := Option.some.inj hwrite
      exact ⟨_, read_real _ (length_octetsOf 8 _), .real _ _⟩
  | date microseconds =>
      obtain rfl := Option.some.inj hwrite
      obtain ⟨word, hword⟩ := hreadable
      obtain ⟨hless, again, hagain⟩ := exists_microseconds? hword
      refine ⟨date again, ?_, .date _ _⟩
      rw [List.cons_append, read_date _ (length_octetsOf 8 _), numberOf_octetsOf 8 _ hless, hagain]
      rfl
  | identifier n =>
      obtain rfl := Option.some.inj hwrite
      exact ⟨_, read_identifierOctets hreadable rest, .same _⟩
  | null | flag _ | integer _ | data _ | text _ | array _ | dictionary _ =>
      refine ⟨_, reads_write ?_ hwidth hparts hwrite hlength rest, .same _⟩
      trivial

end BundleHook.PropertyList.BinaryObject
