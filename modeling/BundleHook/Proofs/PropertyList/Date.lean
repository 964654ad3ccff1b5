import BundleHook.Proofs.Number.Numeral
import BundleHook.PropertyList.Date

/-!
# Written dates

A date that passes its own check is written with every unit at its full width, and is read as
itself.
-/

namespace BundleHook.PropertyList.Date

open Numeral

variable {width n : Nat}

theorem length_padded (hwidth : 0 < width) (h : n < 10 ^ width) :
    (padded width n).length = width := by
  have hlength := (Nat.length_toDigits_le_iff (b := 10) (by decide) hwidth).2 h
  simp only [padded, List.length_append, List.length_replicate]
  omega

theorem areDigits_padded (width n : Nat) : AreDigits (padded width n) :=
  (areDigits_zeros _).append (areDigits_toDigits n)

/-- Zeros before a number do not count. -/
theorem foldl_padded (width n : Nat) :
    (padded width n).foldl (fun n c => 10 * n + (c.toNat - '0'.toNat)) 0 = n := by
  have hzeros (k : Nat) :
      (List.replicate k '0').foldl (fun n c => 10 * n + (c.toNat - '0'.toNat)) 0 = 0 := by
    induction k with
    | zero => rfl
    | succ k ih => exact ih
  rw [padded, List.foldl_append, hzeros]
  exact Nat.ofDigitChars_ten_toDigits

theorem digits?_padded (hwidth : 0 < width) (h : n < 10 ^ width) (rest : Text) :
    digits? width (padded width n ++ rest) = some (n, rest) := by
  have hlength := length_padded hwidth h
  have hdigits : (padded width n).all Char.isDigit = true :=
    List.all_eq_true.2 (areDigits_padded width n)
  simp only [digits?, List.take_left' hlength, List.drop_left' hlength, hlength, hdigits,
    foldl_padded, decide_true, Bool.and_self, if_true]

/-- A unit behind its mark is read before the others. -/
theorem units_cons (mark : Char) (marks : List Char) (h : n < 100) (rest : Text) :
    units (mark :: marks) (mark :: (padded 2 n ++ rest)) =
      (n :: (units marks rest).1, (units marks rest).2) := by
  simp [units, digits?_padded (show 0 < 2 by decide) h]

/-- What passes the check has as many digits as are written. -/
theorem bounds_of_check {d : Date} (h : d.check = .ok d) :
    d.year < 10 ^ 4 ∧ d.month < 100 ∧ d.day < 100 ∧ d.hour < 100 ∧ d.minute < 100 ∧
      d.second < 100 := by
  have hdays : daysIn d.year d.month ≤ 31 := by
    unfold daysIn
    split
    · split <;> decide
    · split <;> decide
  unfold check at h
  split at h
  · cases h
  split at h
  · cases h
  split at h
  · cases h
  split at h
  · cases h
  split at h
  · cases h
  split at h
  · cases h
  · simp only [Bool.or_eq_true, decide_eq_true_eq, not_or, Nat.not_lt] at *
    omega

/-- A date that passes its check is read from its text. -/
theorem read_write {d : Date} (h : d.check = .ok d) : read d.write = .ok d := by
  obtain ⟨hyear, hmonth, hday, hhour, hminute, hsecond⟩ := bounds_of_check h
  have hunits : units ['-', '-', 'T', ':', ':']
      ('-' :: (padded 2 d.month ++ '-' :: (padded 2 d.day ++ 'T' :: (padded 2 d.hour ++
        ':' :: (padded 2 d.minute ++ ':' :: (padded 2 d.second ++ ['Z'])))))) =
      ([d.month, d.day, d.hour, d.minute, d.second], ['Z']) := by
    rw [units_cons _ _ hmonth, units_cons _ _ hday, units_cons _ _ hhour, units_cons _ _ hminute,
      units_cons _ _ hsecond]
    rfl
  have hwrite : d.write = padded 4 d.year ++ '-' :: (padded 2 d.month ++ '-' ::
      (padded 2 d.day ++ 'T' :: (padded 2 d.hour ++ ':' :: (padded 2 d.minute ++ ':' ::
        (padded 2 d.second ++ ['Z']))))) := by
    simp [write]
  simp only [read, hwrite, digits?_padded (show 0 < 4 by decide) hyear, hunits]
  exact h

/-- A date is written in digits and four marks. -/
theorem mem_write {d : Date} {c : Char} (hc : c ∈ d.write) :
    c.isDigit = true ∨ c ∈ ['-', 'T', ':', 'Z'] := by
  have hyear := areDigits_padded 4 d.year c
  have hunit (n : Nat) := areDigits_padded 2 n c
  simp only [write, List.mem_append, List.mem_cons, List.not_mem_nil, or_false] at hc ⊢
  grind

end BundleHook.PropertyList.Date
