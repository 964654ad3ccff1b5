import BundleHook.Proofs.Number.Binary64
import BundleHook.PropertyList.BinaryObject

/-!
# Dates are read again

A date is read from a double of seconds and written as the double nearest to its microseconds. The
two need not be the same, but the new one is a date again: near the upper end of the range doubles
are thirty microseconds apart, so that the last one in the range stays away from the end.
-/

namespace BundleHook.PropertyList.BinaryObject

open Binary64

def signed (negative : Bool) (total : Nat) : Int := if negative then -(total : Int) else total

def InRange (microseconds : Int) : Prop :=
  dateRange.1 ≤ microseconds ∧ microseconds < dateRange.2

instance (microseconds : Int) : Decidable (InRange microseconds) :=
  inferInstanceAs (Decidable (_ ∧ _))

/-- The seconds at the upper end of the range. -/
def lastSecond : Nat := 2921574 * 86400

/-- The seconds from the lower end of the range to the first day of 2001. -/
def secondsBefore : Nat := 730485 * 86400

theorem lastSecond_eq : lastSecond = 252423993600 := rfl

theorem secondsBefore_eq : secondsBefore = 63113904000 := rfl

theorem dateRange_eq : dateRange =
    (-((secondsBefore * 1000000 : Nat) : Int), ((lastSecond * 1000000 : Nat) : Int)) := rfl

theorem inRange_signed_iff (negative : Bool) (total : Nat) :
    InRange (signed negative total) ↔ if negative then total ≤ secondsBefore * 1000000
      else total < lastSecond * 1000000 := by
  unfold InRange signed
  rw [dateRange_eq, lastSecond_eq, secondsBefore_eq]
  cases negative <;> simp only [if_true, if_false, Bool.false_eq_true] <;> omega

/-! ## Reading a number of seconds -/

/-- What the part of `n / d` seconds below a second may be rounded to: no whole number of
microseconds that is not exceeded is exceeded by rounding. -/
def IsPart (n d part : Nat) : Prop := ∀ k < 2 ^ 50, n % d * 1000000 ≤ k * d → part ≤ k

theorem microseconds?_finite (negative : Bool) (mantissa : Nat) (exponent : Int) {n s : Nat}
    (h : scaled mantissa 1 (-exponent) = (n, 2 ^ s)) :
    ∃ part, IsPart n (2 ^ s) part ∧ microseconds? (.finite negative mantissa exponent) =
      if InRange (signed negative (n / 2 ^ s * 1000000 + part)) then
        some (signed negative (n / 2 ^ s * 1000000 + part))
      else none := by
  have hpos := Nat.two_pow_pos s
  have hsmall : n % 2 ^ s * 1000000 < 2 ^ 50 * 2 ^ s := by
    have hless := Nat.mod_lt n hpos
    omega
  obtain ⟨mantissa', s', carry, hnearest, -, -, -, hmantissa⟩ := exists_nearest false hpos hsmall
  refine ⟨roundHalfEven mantissa' (2 ^ s'), fun k hk hle => ?_, ?_⟩
  · exact roundHalfEven_le (Nat.two_pow_pos s') (mantissa_le hpos hle hmantissa)
  have hscaled : scaled mantissa' 1 (-(-(s' : Int))) = (mantissa', 2 ^ s') := by
    rw [Int.neg_neg, scaled_natCast, Nat.one_mul]
  -- The pair is split first: reducing it in place would make the kernel run the rounding.
  rw [microseconds?]
  split
  next a b heq =>
  obtain ⟨rfl, rfl⟩ := Prod.mk.inj (heq.symm.trans h)
  simp only [hnearest, hscaled, Bool.and_eq_true, decide_eq_true_eq]
  rfl

theorem exists_scaled (mantissa : Nat) (exponent : Int) :
    ∃ n s, scaled mantissa 1 (-exponent) = (n, 2 ^ s) ∧ (n = mantissa ∨ s = 0) := by
  rcases Int.le_total 0 exponent with hpositive | hnegative
  · obtain ⟨e, rfl⟩ := Int.eq_ofNat_of_zero_le hpositive
    exact ⟨mantissa * 2 ^ e, 0, scaled_neg mantissa 1 e, .inr rfl⟩
  · obtain ⟨s, hs⟩ := Int.eq_ofNat_of_zero_le (Int.neg_nonneg_of_nonpos hnegative)
    refine ⟨mantissa, s, ?_, .inl rfl⟩
    rw [hs, scaled_natCast, Nat.one_mul]

/-- What is read as a date has a mantissa of 53 bits, or is whole. -/
theorem exists_of_microseconds? {word : Nat} {microseconds : Int}
    (h : microseconds? (ofWord word) = some microseconds) :
    ∃ negative n s part, microseconds = signed negative (n / 2 ^ s * 1000000 + part) ∧
      InRange microseconds ∧ IsPart n (2 ^ s) part ∧ (n < mantissaBound ∨ s = 0) := by
  have hfraction : word % 1 <<< 52 < 1 <<< 52 := Nat.mod_lt _ (by decide)
  have hbound : mantissaBound = 2 * 1 <<< 52 := by decide
  have hfinite (negative : Bool) (mantissa : Nat) (exponent : Int)
      (hmantissa : mantissa < mantissaBound)
      (h : microseconds? (.finite negative mantissa exponent) = some microseconds) :
      ∃ negative n s part, microseconds = signed negative (n / 2 ^ s * 1000000 + part) ∧
        InRange microseconds ∧ IsPart n (2 ^ s) part ∧ (n < mantissaBound ∨ s = 0) := by
    obtain ⟨n, s, hscaled, hexact⟩ := exists_scaled mantissa exponent
    obtain ⟨part, hpart, hread⟩ := microseconds?_finite negative mantissa exponent hscaled
    rw [hread] at h
    split at h
    · next hrange =>
      obtain rfl := Option.some.inj h
      exact ⟨negative, n, s, part, rfl, hrange, hpart,
        hexact.imp_left fun heq => heq.trans_lt hmantissa⟩
    · cases h
  unfold ofWord at h
  simp only at h
  split at h
  · split at h <;> cases h
  · split at h
    · exact hfinite _ _ _ (by omega) h
    · exact hfinite _ _ _ (by omega) h

/-! ## Rounding below a second -/

section Part

variable {n s part : Nat} (hpart : IsPart n (2 ^ s) part)

include hpart

theorem IsPart.le : part ≤ 1000000 := by
  have hless := Nat.mod_lt n (Nat.two_pow_pos s)
  exact hpart 1000000 (by omega) (by omega)

/-- In the last second of the range the microseconds stay away from its end. -/
theorem IsPart.le_of_last (hbits : n < mantissaBound ∨ s = 0)
    (hlast : lastSecond - 1 ≤ n / 2 ^ s) : part ≤ 999970 := by
  have hpower : 2 ^ s ≤ 2 ^ 15 := by
    rcases hbits with hbits | rfl
    · -- a quotient of more than 37 bits leaves 15 for the part behind the point
      by_contra hgreat
      have hmul : (lastSecond - 1) * 2 ^ s ≤ n := Nat.mul_le_of_le_div _ _ _ hlast
      have hmore : (lastSecond - 1) * 2 ^ 16 ≤ (lastSecond - 1) * 2 ^ s := by
        refine Nat.mul_le_mul_left _ (Nat.pow_le_pow_right (by decide) ?_)
        exact Nat.lt_of_not_le fun hle => hgreat (Nat.pow_le_pow_right (by decide) hle)
      have hbound : mantissaBound ≤ (lastSecond - 1) * 2 ^ 16 := by
        rw [lastSecond_eq]
        decide
      omega
    · decide
  have hless := Nat.mod_lt n (Nat.two_pow_pos s)
  generalize 2 ^ s = d at hpart hpower hless
  exact hpart 999970 (by omega) (by omega)

theorem IsPart.add_le_of_lt (hbits : n < mantissaBound ∨ s = 0) (h : n < lastSecond * 2 ^ s) :
    n / 2 ^ s * 1000000 + part ≤ lastSecond * 1000000 - 30 := by
  have hwhole : n / 2 ^ s < lastSecond := (Nat.div_lt_iff_lt_mul (Nat.two_pow_pos s)).2 h
  have hle := hpart.le
  by_cases hlast : lastSecond - 1 ≤ n / 2 ^ s
  · have hclose := hpart.le_of_last hbits hlast
    rw [lastSecond_eq] at hwhole hlast ⊢
    omega
  · omega

theorem IsPart.add_le {k : Nat} (h : n ≤ k * 2 ^ s) : n / 2 ^ s * 1000000 + part ≤ k * 1000000 := by
  have hwhole : n / 2 ^ s ≤ k := Nat.div_le_of_le_mul (by rwa [Nat.mul_comm])
  have hle := hpart.le
  have hdivides := Nat.div_add_mod n (2 ^ s)
  by_cases hlast : n / 2 ^ s = k
  · have hrest : n % 2 ^ s = 0 := by
      rw [hlast, Nat.mul_comm] at hdivides
      omega
    have hnone : part ≤ 0 := hpart 0 (Nat.two_pow_pos 50) (by simp [hrest])
    omega
  · omega

end Part

/-- A date stays thirty microseconds away from the end of the range. -/
theorem natAbs_le_of_microseconds? {word : Nat} {microseconds : Int}
    (h : microseconds? (ofWord word) = some microseconds) :
    microseconds.natAbs ≤ lastSecond * 1000000 - 30 ∧
      (microseconds < 0 → microseconds.natAbs ≤ secondsBefore * 1000000) := by
  obtain ⟨negative, n, s, part, rfl, hrange, hpart, hbits⟩ := exists_of_microseconds? h
  rw [inRange_signed_iff] at hrange
  cases negative with
  | true =>
      simp only [if_true] at hrange
      simp only [signed, if_true]
      rw [lastSecond_eq]
      rw [secondsBefore_eq] at hrange ⊢
      omega
  | false =>
      simp only [Bool.false_eq_true, if_false] at hrange
      have hwhole : n / 2 ^ s < lastSecond := by omega
      have hless := hpart.add_le_of_lt hbits
        ((Nat.div_lt_iff_lt_mul (Nat.two_pow_pos s)).1 hwhole)
      simp only [signed, Bool.false_eq_true, if_false]
      omega

/-! ## Writing a number of seconds -/

section Seconds

variable {microseconds : Int}

/-- A double of full precision that is nearest to a date is no later than the last second. -/
theorem lt_last_of_full {mantissa s carry : Nat} (hfull : 1 <<< 52 ≤ mantissa)
    (habs : microseconds.natAbs ≤ lastSecond * 1000000 - 30)
    (hmantissa : mantissa * 2 ^ carry =
      roundHalfEven (microseconds.natAbs * 2 ^ (s + carry)) 1000000) :
    mantissa < lastSecond * 2 ^ s := by
  have hle : mantissa ≤ lastSecond * 2 ^ s := mantissa_le (Nat.succ_pos _)
    (habs.trans (Nat.sub_le _ _)) hmantissa
  have hs : 15 ≤ s := by
    by_contra hfew
    have hpow : 2 ^ s ≤ 2 ^ 14 := Nat.pow_le_pow_right (by decide) (by omega)
    have hless : lastSecond * 2 ^ 14 < 1 <<< 52 := by
      rw [lastSecond_eq]
      decide
    have hmul := Nat.mul_le_mul_left lastSecond hpow
    omega
  have hpow : 2 ^ 15 ≤ 2 ^ (s + carry) := Nat.pow_le_pow_right (by decide) (by omega)
  have hround : roundHalfEven (microseconds.natAbs * 2 ^ (s + carry)) 1000000 <
      lastSecond * 2 ^ (s + carry) := by
    refine roundHalfEven_lt ?_
    generalize 2 ^ (s + carry) = p at hpow
    have hmul : microseconds.natAbs * p ≤ (lastSecond * 1000000 - 30) * p :=
      Nat.mul_le_mul_right p habs
    rw [lastSecond_eq] at hmul ⊢
    omega
  rw [← hmantissa, Nat.pow_add, ← Nat.mul_assoc] at hround
  exact Nat.lt_of_mul_lt_mul_right hround

/-- A double that stays in the range is read as a date. -/
theorem isSome_of_mantissa {mantissa s : Nat} (negative : Bool) (hbits : mantissa < mantissaBound)
    (hbelow : mantissa < lastSecond * 2 ^ s)
    (hbefore : negative = true → mantissa ≤ secondsBefore * 2 ^ s) :
    ∃ read, microseconds? (.finite negative mantissa (-(s : Int))) = some read := by
  have hscaled : scaled mantissa 1 (-(-(s : Int))) = (mantissa, 2 ^ s) := by
    rw [Int.neg_neg, scaled_natCast, Nat.one_mul]
  obtain ⟨part, hpart, hread⟩ := microseconds?_finite negative mantissa _ hscaled
  rw [hread]
  refine ⟨_, if_pos ((inRange_signed_iff _ _).2 ?_)⟩
  cases negative with
  | true => exact hpart.add_le (hbefore rfl)
  | false =>
      have hless := hpart.add_le_of_lt (.inl hbits) hbelow
      rw [lastSecond_eq] at hless ⊢
      simp only [Bool.false_eq_true, if_false]
      omega

/-- The double that a date is written as is read as a date again. -/
theorem exists_microseconds? {word : Nat} (h : microseconds? (ofWord word) = some microseconds) :
    (seconds microseconds).toWord < 2 ^ 64 ∧
      ∃ read, microseconds? (ofWord (seconds microseconds).toWord) = some read := by
  obtain ⟨habs, hbefore⟩ := natAbs_le_of_microseconds? h
  have hsmall : microseconds.natAbs < 2 ^ 50 * 1000000 :=
    Nat.lt_of_le_of_lt habs (by rw [lastSecond_eq]; omega)
  obtain ⟨mantissa, s, carry, hnearest, hs, hs', hbits, hmantissa⟩ :=
    exists_nearest (decide (microseconds < 0)) (Nat.succ_pos _) hsmall
  have hseconds : seconds microseconds =
      .finite (decide (microseconds < 0)) mantissa (-(s : Int)) := hnearest
  rw [hseconds]
  refine ⟨toWord_lt _ hbits hs, ?_⟩
  by_cases hfull : 1 <<< 52 ≤ mantissa
  · rw [ofWord_toWord _ hfull hbits hs hs']
    refine isSome_of_mantissa _ hbits (lt_last_of_full hfull habs hmantissa) fun hnegative => ?_
    exact mantissa_le (Nat.succ_pos _) (hbefore (of_decide_eq_true hnegative)) hmantissa
  · -- a mantissa with fewer bits is that of a number next to nothing
    have hleast : leastExponent = -((1074 : Nat) : Int) := rfl
    rw [ofWord_toWord_small _ (Nat.lt_of_not_le hfull), hleast]
    have hmany (s k : Nat) (hs : 52 ≤ s) (hk : 0 < k) : mantissa < k * 2 ^ s :=
      calc mantissa < 2 ^ 52 := Nat.lt_of_not_le hfull
        _ ≤ 2 ^ s := Nat.pow_le_pow_right (by decide) hs
        _ ≤ k * 2 ^ s := Nat.le_mul_of_pos_left _ hk
    exact isSome_of_mantissa _ hbits (hmany _ _ (by decide) (by decide))
      fun _ => (hmany _ _ (by decide) (by decide)).le

end Seconds

end BundleHook.PropertyList.BinaryObject
