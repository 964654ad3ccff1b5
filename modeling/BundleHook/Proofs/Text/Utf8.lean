import BundleHook.Text.Utf8

/-!
# Encoded texts

What has been encoded decodes to itself: the head of an encoded character is read as that character,
by its first octet, and takes as many octets as the character has. A file that was written as a text
is the text that was written.
-/

namespace BundleHook.Utf8

/-! ## Single octets -/

section Octets

variable {n k : Nat}

theorem toNat_ofNat_of_lt (h : n < 256) : (UInt8.ofNat n).toNat = n := by
  rw [UInt8.toNat_ofNat']
  exact Nat.mod_eq_of_lt h

theorem isTrail_iff {b : UInt8} : isTrail b = true ↔ 0x80 ≤ b.toNat ∧ b.toNat < 0xC0 := by
  simp [isTrail, UInt8.le_iff_toNat_le, UInt8.lt_iff_toNat_lt]

theorem isTrail_trail (n : Nat) : isTrail (UInt8.ofNat (0x80 + n % 64)) = true := by
  rw [isTrail_iff, toNat_ofNat_of_lt (by omega)]
  omega

theorem trailBits_trail (n : Nat) : trailBits (UInt8.ofNat (0x80 + n % 64)) = n % 64 := by
  rw [trailBits, toNat_ofNat_of_lt (by omega)]
  omega

end Octets

/-! ## The head of a character -/

section Heads

variable {n : Nat} (rest : List UInt8)

theorem head_one (h : n < 0x80) : head (UInt8.ofNat n) rest = .ok (Char.ofNat n, 1) := by
  have ha := toNat_ofNat_of_lt (n := n) (by omega)
  unfold head
  rw [if_pos (by rw [UInt8.lt_iff_toNat_lt, ha]; exact h), ha]

/-- The first octets of longer characters are told apart by their numbers. -/
theorem head_of_lead {k : Nat} (hlow : 0xC2 ≤ k) (hhigh : k < 0xF5) :
    ¬UInt8.ofNat k < (0x80 : UInt8) ∧
      ¬(UInt8.ofNat k < (0xC2 : UInt8) || (0xF5 : UInt8) ≤ UInt8.ofNat k) = true ∧
      (UInt8.ofNat k < (0xE0 : UInt8) ↔ k < 0xE0) ∧
      (UInt8.ofNat k < (0xF0 : UInt8) ↔ k < 0xF0) := by
  have hk := toNat_ofNat_of_lt (n := k) (by omega)
  simp only [Bool.or_eq_true, decide_eq_true_eq, UInt8.lt_iff_toNat_lt, UInt8.le_iff_toNat_le, hk]
  show ¬k < 0x80 ∧ ¬(k < 0xC2 ∨ 0xF5 ≤ k) ∧ (k < 0xE0 ↔ k < 0xE0) ∧ (k < 0xF0 ↔ k < 0xF0)
  omega

theorem head_two (hlow : 0x80 ≤ n) (h : n < 0x800) :
    head (UInt8.ofNat (0xC0 + n / 64)) (UInt8.ofNat (0x80 + n % 64) :: rest) =
      .ok (Char.ofNat n, 2) := by
  have ha := toNat_ofNat_of_lt (n := 0xC0 + n / 64) (by omega)
  obtain ⟨hshort, hlead, htwo, -⟩ :=
    head_of_lead (k := 0xC0 + n / 64) (by omega) (by omega)
  have hvalue : (0xC0 + n / 64) % 32 * 64 + n % 64 = n := by omega
  unfold head
  rw [if_neg hshort, if_neg hlead, if_pos (htwo.2 (by omega))]
  simp only [isTrail_trail, trailBits_trail, ha, hvalue, if_true]

/-- The second octet of a character is one that may follow the first: the character is neither a
shorter one nor a surrogate, and there are no more characters. -/
theorem mayFollow_of_bounds {k : Nat} (hk : k < 0xF5)
    (hshort : (k = 0xE0 → 0x20 ≤ n % 64) ∧ (k = 0xF0 → 0x10 ≤ n % 64))
    (hlong : (k = 0xED → n % 64 < 0x20) ∧ (k = 0xF4 → n % 64 < 0x10)) :
    mayFollow (UInt8.ofNat k) (UInt8.ofNat (0x80 + n % 64)) = true := by
  have ha := toNat_ofNat_of_lt (n := k) (by omega)
  have hb := toNat_ofNat_of_lt (n := 0x80 + n % 64) (by omega)
  simp only [mayFollow, isTrail_trail, Bool.true_and, ← UInt8.toNat_inj, ha, hb,
    UInt8.le_iff_toNat_le, UInt8.lt_iff_toNat_lt, UInt8.reduceToNat]
  split
  · simp only [decide_eq_true_eq]
    omega
  · split
    · simp only [decide_eq_true_eq]
      omega
    · split
      · simp only [decide_eq_true_eq]
        omega
      · split
        · simp only [decide_eq_true_eq]
          omega
        · rfl

theorem head_three (hlow : 0x800 ≤ n) (h : n < 0x10000) (hscalar : ¬(0xD800 ≤ n ∧ n < 0xE000)) :
    head (UInt8.ofNat (0xE0 + n / 4096))
        (UInt8.ofNat (0x80 + n / 64 % 64) :: UInt8.ofNat (0x80 + n % 64) :: rest) =
      .ok (Char.ofNat n, 3) := by
  have ha := toNat_ofNat_of_lt (n := 0xE0 + n / 4096) (by omega)
  obtain ⟨hshort, hlead, htwo, hthree⟩ :=
    head_of_lead (k := 0xE0 + n / 4096) (by omega) (by omega)
  have hfollow : mayFollow (UInt8.ofNat (0xE0 + n / 4096)) (UInt8.ofNat (0x80 + n / 64 % 64)) =
      true := mayFollow_of_bounds (by omega) (by omega) (by omega)
  have hvalue : ((0xE0 + n / 4096) % 16 * 64 + n / 64 % 64) * 64 + n % 64 = n := by omega
  unfold head
  rw [if_neg hshort, if_neg hlead, if_neg (mt htwo.1 (by omega))]
  simp only [hfollow, isTrail_trail, trailBits_trail, ha, hvalue, hthree, Bool.not_true]
  simp only [Bool.false_eq_true, if_false]
  rw [if_pos (by omega)]

theorem head_four (hlow : 0x10000 ≤ n) (h : n < 0x110000) :
    head (UInt8.ofNat (0xF0 + n / 262144))
        (UInt8.ofNat (0x80 + n / 4096 % 64) :: UInt8.ofNat (0x80 + n / 64 % 64) ::
          UInt8.ofNat (0x80 + n % 64) :: rest) =
      .ok (Char.ofNat n, 4) := by
  have ha := toNat_ofNat_of_lt (n := 0xF0 + n / 262144) (by omega)
  obtain ⟨hshort, hlead, htwo, hthree⟩ :=
    head_of_lead (k := 0xF0 + n / 262144) (by omega) (by omega)
  have hfollow : mayFollow (UInt8.ofNat (0xF0 + n / 262144))
      (UInt8.ofNat (0x80 + n / 4096 % 64)) = true :=
    mayFollow_of_bounds (by omega) (by omega) (by omega)
  have hvalue : (((0xF0 + n / 262144) % 8 * 64 + n / 4096 % 64) * 64 + n / 64 % 64) * 64 +
      n % 64 = n := by omega
  unfold head
  rw [if_neg hshort, if_neg hlead, if_neg (mt htwo.1 (by omega))]
  simp only [hfollow, isTrail_trail, trailBits_trail, ha, hvalue, hthree, Bool.not_true]
  simp only [Bool.false_eq_true, if_false, if_true]
  rw [if_neg (by omega)]

end Heads

theorem head_octetsOf (c : Char) (rest : List UInt8) :
    ∃ a others, octetsOf c = a :: others ∧
      head a (others ++ rest) = .ok (c, others.length + 1) := by
  have hvalid : c.toNat < 0xD800 ∨ 0xDFFF < c.toNat ∧ c.toNat < 0x110000 := c.valid
  unfold octetsOf
  by_cases hone : c.toNat < 0x80
  · refine ⟨_, [], if_pos hone, ?_⟩
    rw [List.nil_append, head_one rest hone, Char.ofNat_toNat]
    rfl
  by_cases htwo : c.toNat < 0x800
  · refine ⟨_, [_], (if_neg hone).trans (if_pos htwo), ?_⟩
    have hhead := head_two rest (Nat.le_of_not_lt hone) htwo
    rwa [Char.ofNat_toNat] at hhead
  by_cases hthree : c.toNat < 0x10000
  · refine ⟨_, [_, _], (if_neg hone).trans ((if_neg htwo).trans (if_pos hthree)), ?_⟩
    have hhead := head_three rest (Nat.le_of_not_lt htwo) hthree (by omega)
    rwa [Char.ofNat_toNat] at hhead
  · refine ⟨_, [_, _, _], (if_neg hone).trans ((if_neg htwo).trans (if_neg hthree)), ?_⟩
    have hhead := head_four rest (Nat.le_of_not_lt hthree) (by omega)
    rwa [Char.ofNat_toNat] at hhead

theorem decodeFrom_skip (start : Nat) (skipped rest : List UInt8) :
    decodeFrom start skipped.length (skipped ++ rest) =
      decodeFrom (start + skipped.length) 0 rest := by
  induction skipped generalizing start with
  | nil => rfl
  | cons a skipped ih =>
      simp only [List.length_cons, List.cons_append, decodeFrom, ih]
      congr 1
      omega

theorem decodeFrom_encode (start : Nat) (t : Text) : decodeFrom start 0 (encode t) = .ok t := by
  induction t generalizing start with
  | nil => rfl
  | cons c t ih =>
      obtain ⟨a, others, hoctets, hhead⟩ := head_octetsOf c (encode t)
      have hencode : encode (c :: t) = a :: (others ++ encode t) := by
        unfold encode
        rw [List.flatMap_cons, hoctets]
        rfl
      rw [hencode, decodeFrom, hhead]
      simp only [Nat.add_sub_cancel, decodeFrom_skip, ih]
      rfl

theorem decode_encode (t : Text) : decode (encode t) = .ok t := decodeFrom_encode 0 t

end BundleHook.Utf8
