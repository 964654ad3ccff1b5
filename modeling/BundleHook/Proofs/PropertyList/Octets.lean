import Mathlib.Algebra.Group.Nat.Defs
import BundleHook.Proofs.Text.Utf8
import BundleHook.PropertyList.BinaryObject

/-!
# Numbers and texts in octets

What is written in octets is read again: numbers in as many octets as they need, sizes in a marker
or behind it, and texts in one octet or in two for each unit.
-/

namespace BundleHook.PropertyList

open Utf8 (toNat_ofNat_of_lt)

/-! ## Numbers -/

namespace BinaryObject

/-- The widths that counts are written in, and what fits. -/
theorem widthFor_cases {n : Nat} (h : n < 2 ^ 64) :
    widthFor n = 1 ∧ n < 2 ^ 8 ∨ widthFor n = 2 ∧ n < 2 ^ 16 ∨ widthFor n = 4 ∧ n < 2 ^ 32 ∨
      widthFor n = 8 ∧ n < 2 ^ 64 := by
  unfold widthFor
  split
  · next hone => exact .inl ⟨rfl, hone⟩
  · split
    · next htwo => exact .inr (.inl ⟨rfl, htwo⟩)
    · split
      · next hfour => exact .inr (.inr (.inl ⟨rfl, hfour⟩))
      · exact .inr (.inr (.inr ⟨rfl, h⟩))

theorem widthFor_pos (n : Nat) : 0 < widthFor n := by
  unfold widthFor
  split
  · decide
  · split
    · decide
    · split <;> decide

theorem lt_pow_widthFor {n : Nat} (h : n < 2 ^ 64) : n < Nat.pow 256 (widthFor n) := by
  rcases widthFor_cases h with ⟨hw, hn⟩ | ⟨hw, hn⟩ | ⟨hw, hn⟩ | ⟨hw, hn⟩ <;> rw [hw] <;> exact hn

/-- A smaller number fits as well. -/
theorem lt_pow_widthFor_of_le {m n : Nat} (hle : m ≤ n) (h : n < 2 ^ 64) :
    m < Nat.pow 256 (widthFor n) :=
  Nat.lt_of_le_of_lt hle (lt_pow_widthFor h)

/-- The marker of a width gives the width back. -/
theorem one_shiftLeft_log2_widthFor {n : Nat} (h : n < 2 ^ 64) :
    (widthFor n).log2 < 4 ∧ 1 <<< (widthFor n).log2 = widthFor n := by
  rcases widthFor_cases h with ⟨hw, -⟩ | ⟨hw, -⟩ | ⟨hw, -⟩ | ⟨hw, -⟩ <;> rw [hw] <;> decide

end BinaryObject

theorem take_octetsOf (width n : Nat) (rest : Bytes) :
    (octetsOf width n ++ rest).take width = octetsOf width n := by
  rw [List.take_append_of_le_length (Nat.le_of_eq (length_octetsOf width n).symm),
    List.take_of_length_le (Nat.le_of_eq (length_octetsOf width n))]

theorem drop_octetsOf (width n : Nat) (rest : Bytes) :
    (octetsOf width n ++ rest).drop width = rest := by
  rw [List.drop_append_of_le_length (Nat.le_of_eq (length_octetsOf width n).symm),
    List.drop_of_length_le (Nat.le_of_eq (length_octetsOf width n)), List.nil_append]

/-- In two's complement the lower half of the numbers is not negative. -/
theorem signedOf_octetsOf {width n : Nat} (h : 2 * n < Nat.pow 256 width) :
    signedOf (octetsOf width n) = n := by
  have hn : numberOf (octetsOf width n) = n := numberOf_octetsOf width n (by omega)
  simp only [signedOf, hn, length_octetsOf, if_pos h]

theorem signedOf_octetsOf_of_le {width n : Nat} (h : n < Nat.pow 256 width)
    (hhigh : Nat.pow 256 width ≤ 2 * n) :
    signedOf (octetsOf width n) = (n : Int) - Nat.pow 256 width := by
  simp only [signedOf, numberOf_octetsOf width n h, length_octetsOf, if_neg (Nat.not_lt.2 hhigh)]

/-! ## Texts -/

theorem narrowText?_map {t : Text} (h : t.all (·.toNat < 0x80) = true) :
    narrowText? (t.map fun c => UInt8.ofNat c.toNat) = some t := by
  rw [List.all_eq_true] at h
  have hsmall (c : Char) (hc : c ∈ t) : c.toNat < 0x80 := by simpa using h c hc
  have hall : (t.map fun c => UInt8.ofNat c.toNat).all (· < 0x80) = true := by
    rw [List.all_map, List.all_eq_true]
    intro c hc
    have hc := hsmall c hc
    simp only [Function.comp_apply, decide_eq_true_eq, UInt8.lt_iff_toNat_lt]
    rw [toNat_ofNat_of_lt (by omega)]
    exact hc
  have hback : (t.map fun c => UInt8.ofNat c.toNat).map (fun b => Char.ofNat b.toNat) = t := by
    rw [List.map_map]
    refine (List.map_congr_left fun c hc => ?_).trans (List.map_id t)
    rw [Function.comp_apply, toNat_ofNat_of_lt (Nat.lt_trans (hsmall c hc) (by decide)), Char.ofNat_toNat]
    rfl
  unfold narrowText?
  rw [if_pos hall, hback]

theorem octetsOf_two (n : Nat) : octetsOf 2 n = [UInt8.ofNat (n / 256), UInt8.ofNat n] := rfl

theorem wideText?_unit {n : Nat} (h : n < 0x10000) (hscalar : ¬(0xD800 ≤ n ∧ n < 0xE000))
    (rest : Bytes) :
    wideText? (octetsOf 2 n ++ rest) = (wideText? rest).map (Char.ofNat n :: ·) := by
  have hnumber : numberOf (octetsOf 2 n) = n := numberOf_octetsOf 2 n h
  rw [octetsOf_two] at hnumber ⊢
  simp only [List.cons_append, List.nil_append]
  rw [wideText?.eq_def]
  have hhigh : isHigh n = false := by simp [isHigh]; omega
  have hlow : isLow n = false := by simp [isLow]; omega
  simp [hnumber, hhigh, hlow]

theorem wideText?_pair {high low : Nat} (hhigh : isHigh high = true) (hlow : isLow low = true)
    (rest : Bytes) :
    wideText? (octetsOf 2 high ++ (octetsOf 2 low ++ rest)) =
      (wideText? rest).map (paired high low :: ·) := by
  have hbounds : high < 0xE000 ∧ low < 0xE000 := by
    simp [isHigh, isLow] at hhigh hlow
    omega
  have hfirst : numberOf (octetsOf 2 high) = high :=
    numberOf_octetsOf 2 high (Nat.lt_trans hbounds.1 (by decide))
  have hsecond : numberOf (octetsOf 2 low) = low :=
    numberOf_octetsOf 2 low (Nat.lt_trans hbounds.2 (by decide))
  rw [octetsOf_two] at hfirst hsecond ⊢
  rw [octetsOf_two]
  simp only [List.cons_append, List.nil_append]
  rw [wideText?.eq_def]
  simp [hfirst, hsecond, hhigh, hlow]

/-- A character is read from its units. -/
theorem wideText?_wideOctets (c : Char) (rest : Bytes) :
    wideText? (wideOctets c ++ rest) = (wideText? rest).map (c :: ·) := by
  have hvalid : c.toNat < 0xD800 ∨ 0xDFFF < c.toNat ∧ c.toNat < 0x110000 := c.valid
  unfold wideOctets
  simp only
  split
  · next hshort =>
    rw [wideText?_unit hshort (by omega), Char.ofNat_toNat]
  · next hlong =>
    have hhigh : isHigh (0xD800 + (c.toNat - 0x10000) / 0x400) = true := by
      simp [isHigh]; omega
    have hlow : isLow (0xDC00 + (c.toNat - 0x10000) % 0x400) = true := by
      simp [isLow]; omega
    have hpaired : paired (0xD800 + (c.toNat - 0x10000) / 0x400)
        (0xDC00 + (c.toNat - 0x10000) % 0x400) = c := by
      have hnumber : 0x10000 + (0xD800 + (c.toNat - 0x10000) / 0x400 - 0xD800) * 0x400 +
          (0xDC00 + (c.toNat - 0x10000) % 0x400 - 0xDC00) = c.toNat := by omega
      rw [paired, hnumber, Char.ofNat_toNat]
    rw [List.append_assoc, wideText?_pair hhigh hlow, hpaired]

theorem wideText?_flatMap (t : Text) : wideText? (t.flatMap wideOctets) = some t := by
  induction t with
  | nil => rfl
  | cons c t ih => rw [List.flatMap_cons, wideText?_wideOctets, ih, Option.map_some]

/-- Units come in two octets each. -/
theorem length_wideOctets (t : Text) : ∃ units, (t.flatMap wideOctets).length = 2 * units := by
  induction t with
  | nil => exact ⟨0, rfl⟩
  | cons c t ih =>
      obtain ⟨units, hunits⟩ := ih
      rw [List.flatMap_cons, List.length_append, hunits]
      unfold wideOctets
      simp only
      split
      · exact ⟨units + 1, by rw [length_octetsOf]; omega⟩
      · exact ⟨units + 2, by rw [List.length_append, length_octetsOf, length_octetsOf]; omega⟩

end BundleHook.PropertyList
