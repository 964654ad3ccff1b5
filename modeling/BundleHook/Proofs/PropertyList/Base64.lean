import BundleHook.PropertyList.Rendering

/-!
# Octets in base 64

Octets that are written in lines are read as themselves: the lines but the last hold whole groups of
four characters, and the blanks between them have no value.
-/

namespace BundleHook.PropertyList

namespace Base64

/-! ## Symbols -/

theorem value?_symbol {n : Nat} (h : n < 64) : value? (symbol n) = some n := by
  revert n
  decide

theorem symbol_ne_pad {n : Nat} (h : n < 64) : symbol n ≠ '=' := by
  revert n
  decide

section Reading

variable {a b c : UInt8} {before : List UInt8}

/-- A symbol is taken for its value. -/
theorem decodeFrom_symbol (r : Reading) {n : Nat} (h : n < 64) (rest : Text) :
    decodeFrom r (symbol n :: rest) =
      match r.group with
      | [] => decodeFrom ⟨[n], 0, r.octets⟩ rest
      | [a] => decodeFrom ⟨[n, a], 0, UInt8.ofNat (a * 4 + n / 16) :: r.octets⟩ rest
      | [b, a] => decodeFrom ⟨[n, b, a], 0, UInt8.ofNat (b * 16 + n / 4) :: r.octets⟩ rest
      | b :: _ => decodeFrom ⟨[], 0, UInt8.ofNat (b * 64 + n) :: r.octets⟩ rest := by
  rw [decodeFrom, if_neg (symbol_ne_pad h)]
  have hvalue := value?_symbol h
  generalize value? (symbol n) = value at hvalue ⊢
  subst hvalue
  rfl

/-- A character of no value is passed over. -/
theorem decodeFrom_skip (r : Reading) {c : Char} (hpad : c ≠ '=') (hvalue : value? c = none)
    (rest : Text) : decodeFrom r (c :: rest) = decodeFrom r rest := by
  rw [decodeFrom, if_neg hpad, hvalue]

theorem decodeFrom_skipAll (r : Reading) {t : Text}
    (h : ∀ c ∈ t, c ≠ '=' ∧ value? c = none) (rest : Text) :
    decodeFrom r (t ++ rest) = decodeFrom r rest := by
  induction t with
  | nil => rfl
  | cons c t ih =>
      obtain ⟨hpad, hvalue⟩ := h c List.mem_cons_self
      rw [List.cons_append, decodeFrom_skip r hpad hvalue,
        ih fun c hc => h c (List.mem_cons_of_mem _ hc)]

/-- What is above an octet does not count. -/
theorem ofNat_eq (n : Nat) (h : n % 256 = a.toNat) : UInt8.ofNat n = a := by
  rw [← UInt8.toNat_inj, UInt8.toNat_ofNat', ← h]

/-- Three octets make a whole group. -/
theorem decodeFrom_group (rest : Text) :
    decodeFrom ⟨[], 0, before⟩ (encode [a, b, c] ++ rest) =
      decodeFrom ⟨[], 0, c :: b :: a :: before⟩ rest := by
  have ha := a.toNat_lt
  have hb := b.toNat_lt
  have hc := c.toNat_lt
  simp only [encode, List.cons_append, List.nil_append]
  have h₁ : ((a.toNat * 256 + b.toNat) * 256 + c.toNat) / 262144 < 64 := by omega
  simp only [decodeFrom_symbol _ h₁, decodeFrom_symbol _ (Nat.mod_lt _ (by decide : 0 < 64))]
  rw [ofNat_eq (a := c) _ (by omega), ofNat_eq (a := b) _ (by omega),
    ofNat_eq (a := a) _ (by omega)]

/-- Two octets are padded with one character. -/
theorem decodeFrom_two (rest : Text) :
    decodeFrom ⟨[], 0, before⟩ (encode [a, b] ++ rest) = .ok (b :: a :: before).reverse := by
  have ha := a.toNat_lt
  have hb := b.toNat_lt
  simp only [encode, List.cons_append, List.nil_append]
  have h₁ : (a.toNat * 256 + b.toNat) * 4 / 4096 < 64 := by omega
  simp only [decodeFrom_symbol _ h₁, decodeFrom_symbol _ (Nat.mod_lt _ (by decide : 0 < 64))]
  rw [ofNat_eq (a := b) _ (by omega), ofNat_eq (a := a) _ (by omega)]
  simp [decodeFrom]

/-- One octet is padded with two characters. -/
theorem decodeFrom_one (rest : Text) :
    decodeFrom ⟨[], 0, before⟩ (encode [a] ++ rest) = .ok (a :: before).reverse := by
  have ha := a.toNat_lt
  simp only [encode, List.cons_append, List.nil_append]
  have h₁ : a.toNat * 16 / 64 < 64 := by omega
  simp only [decodeFrom_symbol _ h₁, decodeFrom_symbol _ (Nat.mod_lt _ (by decide : 0 < 64))]
  rw [ofNat_eq (a := a) _ (by omega)]
  simp [decodeFrom]

end Reading

/-- Octets in whole groups are read before the rest. -/
theorem decodeFrom_whole {part before : List UInt8} (h : part.length % 3 = 0) (rest : Text) :
    decodeFrom ⟨[], 0, before⟩ (encode part ++ rest) =
      decodeFrom ⟨[], 0, part.reverse ++ before⟩ rest := by
  induction part using encode.induct generalizing before with
  | case1 => rfl
  | case2 a => simp at h
  | case3 a b => simp at h
  | case4 a b c part ih =>
      have hpart : part.length % 3 = 0 := by simp only [List.length_cons] at h; omega
      have hencode : encode (a :: b :: c :: part) = encode [a, b, c] ++ encode part := by
        simp [encode]
      rw [hencode, List.append_assoc, decodeFrom_group, ih hpart]
      simp

/-- The padding of a broken group ends the reading. -/
theorem decodeFrom_broken {part before : List UInt8} (h : part.length % 3 ≠ 0) (rest : Text) :
    decodeFrom ⟨[], 0, before⟩ (encode part ++ rest) = .ok (before.reverse ++ part) := by
  induction part using encode.induct generalizing before with
  | case1 => simp at h
  | case2 a => simp [decodeFrom_one]
  | case3 a b => simp [decodeFrom_two]
  | case4 a b c part ih =>
      have hpart : part.length % 3 ≠ 0 := by simp only [List.length_cons] at h; omega
      have hencode : encode (a :: b :: c :: part) = encode [a, b, c] ++ encode part := by
        simp [encode]
      rw [hencode, List.append_assoc, decodeFrom_group, ih hpart]
      simp

/-- Octets are written in symbols and padding. -/
theorem mem_encode {octets : List UInt8} {c : Char} (hc : c ∈ encode octets) :
    (∃ n < 64, c = symbol n) ∨ c = '=' := by
  induction octets using encode.induct with
  | case1 => cases hc
  | case2 a =>
      have ha := a.toNat_lt
      simp only [encode, List.mem_cons, List.not_mem_nil, or_false] at hc
      rcases hc with hc | hc | hc | hc
      · exact .inl ⟨_, by omega, hc⟩
      · exact .inl ⟨_, by omega, hc⟩
      · exact .inr hc
      · exact .inr hc
  | case3 a b =>
      have ha := a.toNat_lt
      have hb := b.toNat_lt
      simp only [encode, List.mem_cons, List.not_mem_nil, or_false] at hc
      rcases hc with hc | hc | hc | hc
      · exact .inl ⟨_, by omega, hc⟩
      · exact .inl ⟨_, by omega, hc⟩
      · exact .inl ⟨_, by omega, hc⟩
      · exact .inr hc
  | case4 a b c' rest ih =>
      have ha := a.toNat_lt
      have hb := b.toNat_lt
      have hc' := c'.toNat_lt
      simp only [encode, List.mem_cons] at hc
      rcases hc with hc | hc | hc | hc | hc
      · exact .inl ⟨_, by omega, hc⟩
      · exact .inl ⟨_, by omega, hc⟩
      · exact .inl ⟨_, by omega, hc⟩
      · exact .inl ⟨_, by omega, hc⟩
      · exact ih hc

/-! ## Lines -/

theorem octetsPerLine_mod (level : Nat) : octetsPerLine level % 3 = 0 := by
  simp [octetsPerLine]

theorem octetsPerLine_pos (level : Nat) : 0 < octetsPerLine level := by
  unfold octetsPerLine
  omega

/-- The octets on lines behind the same blanks, with blanks behind the last line. -/
theorem decodeFrom_lines {width : Nat} (hpos : 0 < width) (hwidth : width % 3 = 0) {indent : Text}
    (hindent : ∀ c ∈ indent, c ≠ '=' ∧ value? c = none) {steps : Nat} {octets : List UInt8}
    (hsteps : octets.length ≤ steps) (before : List UInt8) :
    decodeFrom ⟨[], 0, before⟩ ((chunks.go width steps octets).flatMap (fun part =>
      indent ++ encode part ++ ['\n']) ++ indent) = .ok (before.reverse ++ octets) := by
  have hblank (before : List UInt8) : decodeFrom ⟨[], 0, before⟩ indent = .ok before.reverse := by
    rw [← List.append_nil indent, decodeFrom_skipAll _ hindent]
    rfl
  induction steps generalizing octets before with
  | zero =>
      obtain rfl := List.length_eq_zero_iff.1 (Nat.le_zero.1 hsteps)
      simpa [chunks.go] using hblank before
  | succ steps ih =>
      cases octets with
      | nil => simpa [chunks.go] using hblank before
      | cons a others =>
          have hgo : chunks.go width (steps + 1) (a :: others) =
              (a :: others).take width :: chunks.go width steps ((a :: others).drop width) := rfl
          have hdrop : ((a :: others).drop width).length ≤ steps := by
            simp only [List.length_drop, List.length_cons] at hsteps ⊢
            omega
          rw [hgo, List.flatMap_cons, List.append_assoc, List.append_assoc, List.append_assoc,
            decodeFrom_skipAll _ hindent]
          by_cases hbroken : ((a :: others).take width).length % 3 = 0
          · rw [decodeFrom_whole hbroken, List.singleton_append,
              decodeFrom_skip _ (by decide) (by decide), ih hdrop]
            simp
          · -- A line that is no whole number of groups is shorter than the others, so the last.
            have hshort : (a :: others).length ≤ width := by
              refine Nat.le_of_not_lt fun hlong => ?_
              rw [List.length_take, Nat.min_eq_left (by omega)] at hbroken
              exact hbroken hwidth
            rw [decodeFrom_broken hbroken, List.take_of_length_le hshort]

end Base64

end BundleHook.PropertyList
