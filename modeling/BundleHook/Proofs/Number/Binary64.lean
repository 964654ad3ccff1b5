import Mathlib.Tactic.Linarith
import Mathlib.Tactic.Ring
import BundleHook.Number.Binary64

/-!
# Rounding to a double

The double nearest to a quotient that is no greater than a whole number is no greater than that
number either. Where its mantissa has all 53 bits, its word gives it back.

* `roundHalfEven_bound` — rounding adds a half at most;
* `exists_nearest` — the mantissa and the exponent of the double nearest to a moderate quotient;
* `ofWord_toWord` — a double of full precision is read from its word.
-/

namespace BundleHook.Binary64

/-! ## Rounding to a whole number -/

theorem roundHalfEven_bound (n d : Nat) : 2 * roundHalfEven n d * d ≤ 2 * n + d := by
  have hdivides := Nat.div_add_mod n d
  have hwhole : 2 * (n / d + 1) * d = 2 * (d * (n / d)) + 2 * d := by ring
  unfold roundHalfEven
  simp only
  split
  · next hup =>
    rw [hwhole]
    simp only [Bool.or_eq_true, decide_eq_true_eq, Bool.and_eq_true, beq_iff_eq] at hup
    omega
  · have hdown : 2 * (n / d) * d = 2 * (d * (n / d)) := by ring
    rw [hdown]
    omega

/-- A whole number that is not exceeded is not exceeded by rounding. -/
theorem roundHalfEven_le {n d k : Nat} (hd : 0 < d) (h : n ≤ k * d) : roundHalfEven n d ≤ k := by
  have hbound := roundHalfEven_bound n d
  by_contra hgreater
  have hnext : (k + 1) * d ≤ roundHalfEven n d * d := Nat.mul_le_mul_right d (by omega)
  have hleft : 2 * roundHalfEven n d * d = 2 * (roundHalfEven n d * d) := by ring
  rw [Nat.add_mul, Nat.one_mul] at hnext
  omega

/-- What is more than a half below a whole number stays below it. -/
theorem roundHalfEven_lt {n d k : Nat} (h : 2 * n + d < 2 * k * d) : roundHalfEven n d < k := by
  have hbound := roundHalfEven_bound n d
  by_contra hreached
  have hmul : 2 * k * d ≤ 2 * roundHalfEven n d * d :=
    Nat.mul_le_mul_right d (Nat.mul_le_mul_left 2 (Nat.le_of_not_lt hreached))
  omega

/-! ## The nearest double -/

theorem scaled_neg (n d s : Nat) : scaled n d (-(s : Int)) = (n * 2 ^ s, d) := by
  unfold scaled
  split
  · simp [Nat.shiftLeft_eq]
  · next hzero =>
    obtain rfl : s = 0 := by omega
    simp [Nat.shiftLeft_eq]

theorem scaled_natCast (n d s : Nat) : scaled n d (s : Int) = (n, d * 2 ^ s) := by
  unfold scaled
  rw [if_neg (by omega)]
  simp [Nat.shiftLeft_eq]

/-- A quotient is below a power of two that the logarithms tell. -/
theorem mul_pow_lt {n d s : Nat} (hd : 0 < d) {bits : Nat}
    (hbits : n.log2 + s < d.log2 + bits) : n * 2 ^ s < 2 ^ bits * d := by
  have hn : n < 2 ^ (n.log2 + 1) := Nat.lt_log2_self
  have hpow : 2 ^ d.log2 ≤ d := Nat.log2_self_le (Nat.ne_of_gt hd)
  calc n * 2 ^ s < 2 ^ (n.log2 + 1) * 2 ^ s := Nat.mul_lt_mul_of_pos_right hn (Nat.two_pow_pos s)
    _ = 2 ^ (n.log2 + 1 + s) := (Nat.pow_add 2 _ _).symm
    _ ≤ 2 ^ (bits + d.log2) := Nat.pow_le_pow_right (by decide) (by omega)
    _ = 2 ^ bits * 2 ^ d.log2 := Nat.pow_add 2 _ _
    _ ≤ 2 ^ bits * d := Nat.mul_le_mul_left _ hpow

/-- The exponent at which a quotient below `2 ^ 50` is rounded: it is negative, and the quotient has
53 bits there at most. -/
theorem exists_fitted {n d : Nat} (hd : 0 < d) (hn : n ≠ 0) (hsmall : n < 2 ^ 50 * d) :
    ∃ s : Nat, 2 ≤ s ∧ s ≤ 1074 ∧ n * 2 ^ s / d < mantissaBound ∧
      (let guess : Int := (n.log2 : Int) - d.log2 - 53
       let (n', d') := scaled n d guess
       max (if n' / d' < mantissaBound then guess else guess + 1) leastExponent = -(s : Int)) := by
  have hlog : n.log2 < d.log2 + 51 := by
    have hpow : 2 ^ n.log2 ≤ n := Nat.log2_self_le hn
    have hd' : d < 2 ^ (d.log2 + 1) := Nat.lt_log2_self
    have hless : 2 ^ n.log2 < 2 ^ (d.log2 + 51) := by
      calc 2 ^ n.log2 ≤ n := hpow
        _ < 2 ^ 50 * d := hsmall
        _ ≤ 2 ^ 50 * 2 ^ (d.log2 + 1) := Nat.mul_le_mul_left _ hd'.le
        _ = 2 ^ (d.log2 + 51) := by rw [← Nat.pow_add]; congr 1; omega
    exact (Nat.pow_lt_pow_iff_right (by decide)).1 hless
  obtain ⟨g, hg⟩ : ∃ g : Nat, (n.log2 : Int) - d.log2 - 53 = -(g : Int) :=
    ⟨d.log2 + 53 - n.log2, by omega⟩
  have hbound : mantissaBound = 2 ^ 53 := rfl
  -- One bit less than at the guess is few enough, and so is anything less than that.
  have hfew {s : Nat} (hs : s < g) : n * 2 ^ s / d < mantissaBound := by
    rw [Nat.div_lt_iff_lt_mul hd, hbound]
    exact mul_pow_lt hd (by omega)
  simp only [hg, scaled_neg]
  by_cases hfits : n * 2 ^ g / d < mantissaBound
  · rw [if_pos hfits]
    refine ⟨min g 1074, by omega, by omega, ?_, by unfold leastExponent; omega⟩
    refine Nat.lt_of_le_of_lt (Nat.div_le_div_right ?_) hfits
    exact Nat.mul_le_mul_left _ (Nat.pow_le_pow_right (by decide) (by omega))
  · rw [if_neg hfits]
    exact ⟨min (g - 1) 1074, by omega, by omega, hfew (by omega), by unfold leastExponent; omega⟩

/-- The double nearest to a quotient below `2 ^ 50` is finite, its exponent is negative, and its
mantissa is the quotient rounded there, or half of it when that has a bit too much. -/
theorem exists_nearest (negative : Bool) {n d : Nat} (hd : 0 < d) (hsmall : n < 2 ^ 50 * d) :
    ∃ mantissa s carry : Nat, nearest negative n d = finite negative mantissa (-(s : Int)) ∧
      1 ≤ s ∧ s ≤ 1074 ∧ mantissa < mantissaBound ∧
      mantissa * 2 ^ carry = roundHalfEven (n * 2 ^ (s + carry)) d := by
  by_cases hn : n = 0
  · refine ⟨0, 1074, 0, by rw [nearest, if_pos hn]; rfl, by decide, Nat.le_refl _, by decide, ?_⟩
    rw [hn, Nat.zero_mul, Nat.zero_mul]
    unfold roundHalfEven
    simp
  obtain ⟨s, hlow, hhigh, hfits, hexponent⟩ := exists_fitted hd hn hsmall
  have hrounded : roundHalfEven (n * 2 ^ s) d ≤ mantissaBound := by
    unfold roundHalfEven
    simp only
    split <;> omega
  unfold nearest
  rw [if_neg hn]
  simp only at hexponent ⊢
  rw [hexponent, scaled_neg]
  simp only
  by_cases hcarry : roundHalfEven (n * 2 ^ s) d = mantissaBound
  · rw [if_pos hcarry, if_neg (by unfold greatestExponent; omega)]
    refine ⟨mantissaBound / 2, s - 1, 1, ?_, by omega, by omega, by decide, ?_⟩
    · rw [hcarry]
      congr 1
      omega
    · rw [Nat.sub_add_cancel (by omega), hcarry]
      decide
  · rw [if_neg hcarry, if_neg (by unfold greatestExponent; omega)]
    exact ⟨_, s, 0, rfl, by omega, hhigh, by omega, by rw [Nat.pow_zero, Nat.mul_one, Nat.add_zero]⟩

/-- The nearest double does not exceed a whole number that the quotient does not exceed. -/
theorem mantissa_le {n d k mantissa s carry : Nat} (hd : 0 < d) (h : n ≤ k * d)
    (hmantissa : mantissa * 2 ^ carry = roundHalfEven (n * 2 ^ (s + carry)) d) :
    mantissa ≤ k * 2 ^ s := by
  have hle : mantissa * 2 ^ carry ≤ k * 2 ^ (s + carry) := by
    rw [hmantissa]
    refine roundHalfEven_le hd ?_
    calc n * 2 ^ (s + carry) ≤ k * d * 2 ^ (s + carry) := Nat.mul_le_mul_right _ h
      _ = k * 2 ^ (s + carry) * d := by ring
  rw [Nat.pow_add, ← Nat.mul_assoc] at hle
  exact Nat.le_of_mul_le_mul_right hle (Nat.two_pow_pos carry)

/-! ## Words -/

/-- The fields of a word are read from where they stand in it. -/
theorem ofWord_fields (negative : Bool) {power fraction : Nat} (hpower : power < 2047)
    (hfraction : fraction < 2 ^ 52) :
    let rest := power * 2 ^ 52 + fraction
    ofWord (if negative then 1 <<< 63 + rest else rest) =
      if power = 0 then finite negative fraction leastExponent
      else finite negative (1 <<< 52 + fraction) ((power : Int) - 1075) := by
  intro rest
  obtain ⟨word, hword⟩ :
    ∃ word, (if negative = true then 1 <<< 63 + rest else rest) = word := ⟨_, rfl⟩
  have hsign : (1 : Nat) <<< 63 = 2 ^ 63 := by decide
  have hpowers : (1 : Nat) <<< 11 = 2048 := by decide
  have hfractions : (1 : Nat) <<< 52 = 2 ^ 52 := by decide
  have hvalue : word = (if negative = true then 2 ^ 63 else 0) + power * 2 ^ 52 + fraction := by
    rw [← hword, hsign]
    cases negative <;> simp [rest, Nat.add_assoc]
  have hfirst : word >>> 52 % 1 <<< 11 = power := by
    rw [Nat.shiftRight_eq_div_pow, hpowers, hvalue]
    cases negative <;> simp only [Bool.false_eq_true, if_false, if_true] <;> omega
  have hsecond : word % 1 <<< 52 = fraction := by
    rw [hfractions, hvalue]
    cases negative <;> simp only [Bool.false_eq_true, if_false, if_true] <;> omega
  have hthird : (word >>> 63 % 2 == 1) = negative := by
    rw [Nat.shiftRight_eq_div_pow, hvalue]
    cases negative <;> simp only [Bool.false_eq_true, if_false, if_true, beq_iff_eq,
      beq_eq_false_iff_ne] <;> omega
  rw [hword, ofWord]
  simp only [hfirst, hsecond, hthird, Nat.ne_of_lt hpower, if_false]

/-- A mantissa that has not all bits is read as that of the least numbers. -/
theorem ofWord_toWord_small (negative : Bool) {mantissa : Nat} (h : mantissa < 1 <<< 52)
    (exponent : Int) :
    ofWord (toWord (finite negative mantissa exponent)) = finite negative mantissa leastExponent := by
  have hfields := @ofWord_fields negative 0 mantissa (by decide) h
  rw [if_pos rfl, Nat.zero_mul, Nat.zero_add] at hfields
  unfold toWord
  simp only [if_pos h]
  exact hfields

theorem ofWord_toWord (negative : Bool) {mantissa s : Nat} (hfull : 1 <<< 52 ≤ mantissa)
    (hbound : mantissa < mantissaBound) (hs : 1 ≤ s) (hs' : s ≤ 1074) :
    ofWord (toWord (finite negative mantissa (-(s : Int)))) =
      finite negative mantissa (-(s : Int)) := by
  have hfirst : (1 : Nat) <<< 52 = 2 ^ 52 := by decide
  have hmany : mantissaBound = 2 * 2 ^ 52 := by decide
  have hexponent : (-(s : Int) + 1075).toNat = 1075 - s := by omega
  have hfields := @ofWord_fields negative (1075 - s) (mantissa - 1 <<< 52) (by omega)
    (by rw [hfirst] at hfull ⊢; omega)
  rw [if_neg (by omega), Nat.add_sub_cancel' hfull,
    show ((1075 - s : Nat) : Int) - 1075 = -(s : Int) by omega] at hfields
  unfold toWord
  simp only [if_neg (Nat.not_lt.2 hfull), hexponent, Nat.shiftLeft_eq (1075 - s)]
  exact hfields

/-- A word has 64 bits. -/
theorem toWord_lt (negative : Bool) {mantissa s : Nat} (hbound : mantissa < mantissaBound)
    (hs : 1 ≤ s) : toWord (finite negative mantissa (-(s : Int))) < 2 ^ 64 := by
  have hfirst : (1 : Nat) <<< 52 = 2 ^ 52 := by decide
  have hsign : (1 : Nat) <<< 63 = 2 ^ 63 := by decide
  have hmany : mantissaBound = 2 * 2 ^ 52 := by decide
  have hexponent : (-(s : Int) + 1075).toNat ≤ 1074 := by omega
  unfold toWord
  simp only [Nat.shiftLeft_eq (-(s : Int) + 1075).toNat, hfirst, hsign]
  split <;> cases negative <;> simp only [Bool.false_eq_true, if_false, if_true] <;> omega

end BundleHook.Binary64
