import Mathlib.Data.Nat.Digits.Lemmas
import BundleHook.Number.Numeral
import BundleHook.Number.Shortest

/-!
# Written numbers

An integer in decimal digits is read as itself. The text of a double is read as a number, whatever
number that is: it is made of digits, with at most one point and at most one exponent among them.
-/

namespace BundleHook.Numeral

/-! ## Digits -/

/-- The characters are the ten digits of ASCII. -/
def AreDigits (t : Text) : Prop := ∀ c ∈ t, c.isDigit = true

theorem areDigits_toDigits (n : Nat) : AreDigits (Nat.toDigits 10 n) := fun _ hc =>
  Nat.isDigit_of_mem_toDigits (by decide) (by decide) hc

theorem AreDigits.append {t t' : Text} (h : AreDigits t) (h' : AreDigits t') :
    AreDigits (t ++ t') := fun c hc => (List.mem_append.1 hc).elim (h c) (h' c)

theorem areDigits_zero : AreDigits ['0'] := fun c hc => by
  rw [List.mem_singleton.1 hc]
  decide

theorem areDigits_zeros (n : Nat) : AreDigits (List.replicate n '0') := fun c hc => by
  rw [List.eq_of_mem_replicate hc]
  decide

theorem toNat_of_isDigit {c : Char} (h : c.isDigit = true) : 48 ≤ c.toNat ∧ c.toNat ≤ 57 := by
  simpa [Char.isDigit, UInt32.le_iff_toNat_le] using h

theorem isBlank_of_isDigit {c : Char} (h : c.isDigit = true) : Text.isBlank c = false := by
  obtain ⟨hlow, hhigh⟩ := toNat_of_isDigit h
  simp only [Text.isBlank, Text.within, Text.blankIntervals, List.any_cons, List.any_nil,
    Bool.or_false, Bool.or_eq_false_iff, Bool.and_eq_false_iff, decide_eq_false_iff_not]
  omega

theorem ne_of_isDigit {c d : Char} (h : c.isDigit = true) (hd : d.isDigit = false) : c ≠ d := by
  rintro rfl
  rw [h] at hd
  cases hd

theorem decimalDigit?_of_isDigit {c : Char} (h : c.isDigit = true) :
    decimalDigit? c = some (c.toNat - '0'.toNat) := by
  rw [decimalDigit?, if_pos h]

/-- A text without underscores has the values of its characters as digits. -/
theorem digits?_of_areDigits {t : Text} (h : AreDigits t) (hne : t ≠ []) :
    digits? decimalDigit? t = some (t.map fun c => c.toNat - '0'.toNat) := by
  induction t using digits?.induct with
  | case1 => exact absurd rfl hne
  | case2 c => rw [digits?, decimalDigit?_of_isDigit (h c List.mem_cons_self)]; rfl
  | case3 c rest _ => exact absurd (h '_' (by simp)) (by decide)
  | case4 c rest hsingle hunderscore ih =>
      have hc := decimalDigit?_of_isDigit (h c List.mem_cons_self)
      have hrest := ih (fun d hd => h d (List.mem_cons_of_mem c hd)) hsingle
      rw [digits?.eq_4 _ _ _ hsingle hunderscore, hc, hrest]
      rfl

theorem number_toDigits (n : Nat) :
    number 10 ((Nat.toDigits 10 n).map fun c => c.toNat - '0'.toNat) = n := by
  rw [number, List.foldl_map]
  exact Nat.ofDigitChars_ten_toDigits

theorem splitSign_of_areDigits {t : Text} (h : AreDigits t) : splitSign t = (false, t) := by
  unfold splitSign
  split
  · exact absurd (h '-' List.mem_cons_self) (by decide)
  · exact absurd (h '+' List.mem_cons_self) (by decide)
  · rfl

theorem takeWhile_eq_self {α : Type} {p : α → Bool} {l : List α} (h : ∀ a ∈ l, p a = true) :
    l.takeWhile p = l := by
  have happend : (l ++ []).takeWhile p = l ++ [].takeWhile p := List.takeWhile_append_of_pos h
  simpa using happend

/-- A text without blanks is trimmed already. -/
theorem trim_eq_self {t : Text} (h : ∀ c ∈ t, Text.isBlank c = false) : Text.trim t = t := by
  have dropWhile_eq_self (t : Text) (h : ∀ c ∈ t, Text.isBlank c = false) :
      t.dropWhile Text.isBlank = t := by
    cases t with
    | nil => rfl
    | cons c t => simp [h c List.mem_cons_self]
  rw [Text.trim, Text.trimStart, dropWhile_eq_self t h,
    dropWhile_eq_self t.reverse fun c hc => h c (List.mem_reverse.1 hc), List.reverse_reverse]

/-- The sign of a number, if it is negative. -/
def sign (negative : Bool) : Text := if negative then ['-'] else []

theorem isBlank_of_mem_sign_append {negative : Bool} {t : Text}
    (h : ∀ c ∈ t, Text.isBlank c = false) : ∀ c ∈ sign negative ++ t, Text.isBlank c = false := by
  intro c hc
  cases negative with
  | false => exact h c hc
  | true => exact (List.mem_cons.1 hc).elim (fun hc => hc ▸ by decide) (h c)

theorem splitSign_sign {t : Text} (h : splitSign t = (false, t)) (negative : Bool) :
    splitSign (sign negative ++ t) = (negative, t) := by
  cases negative with
  | false => exact h
  | true => rfl

/-! ## Integers -/

/-- The text of an integer: a minus before the digits of a negative one. -/
theorem toString_toList (n : Int) :
    (toString n).toList = sign (n < 0) ++ Nat.toDigits 10 n.natAbs := by
  rw [Int.toString_eq_repr, Int.repr_eq_if, sign]
  split
  · next h =>
    rw [if_neg (by simpa using h), Nat.repr_eq_ofList_toDigits, String.toList_ofList,
      show n.toNat = n.natAbs by omega]
    rfl
  · next h =>
    rw [if_pos (by simpa using h), Nat.repr_eq_ofList_toDigits, String.toList_append,
      String.toList_ofList, String.toList_ofList, show (-n).toNat = n.natAbs by omega]

/-- An integer of not too many digits is read from its text. -/
theorem decimal?_toString {n : Int} (h : (Nat.toDigits 10 n.natAbs).length ≤ digitLimit) :
    decimal? (toString n).toList = .ok n := by
  have hdigits := areDigits_toDigits n.natAbs
  have htrim : Text.trim (toString n).toList = (toString n).toList := by
    rw [toString_toList]
    exact trim_eq_self (isBlank_of_mem_sign_append fun c hc => isBlank_of_isDigit (hdigits c hc))
  have hsign : splitSign (toString n).toList = (decide (n < 0), Nat.toDigits 10 n.natAbs) := by
    rw [toString_toList]
    exact splitSign_sign (splitSign_of_areDigits hdigits) _
  have hrun : (Nat.toDigits 10 n.natAbs).takeWhile
      (fun c => c == '_' || (decimalDigit? c).isSome) = Nat.toDigits 10 n.natAbs :=
    takeWhile_eq_self fun c hc => by simp [decimalDigit?_of_isDigit (hdigits c hc)]
  have hsigned : signed (decide (n < 0)) n.natAbs = n := by
    unfold signed
    split
    · next hneg => have hneg := of_decide_eq_true hneg; omega
    · next hpos => have hpos := of_decide_eq_false (eq_false_of_ne_true hpos); omega
  simp only [decimal?, htrim, hsign, hrun, digits?_of_areDigits hdigits Nat.toDigits_ne_nil,
    List.length_map, if_neg (Nat.not_lt.2 h), Nat.lt_irrefl, if_false, number_toDigits, hsigned]

/-! ## Reals -/

/-- Nothing, or a point with digits behind it. -/
inductive IsFraction : Text → Prop where
  | none : IsFraction []
  | digits {t : Text} (h : AreDigits t) : IsFraction ('.' :: t)

/-- Nothing, or an exponent with its sign. -/
inductive IsExponent : Text → Prop where
  | none : IsExponent []
  | digits {sign : Char} {t : Text} (hsign : sign = '+' ∨ sign = '-') (h : AreDigits t)
      (hne : t ≠ []) : IsExponent ('e' :: sign :: t)

/-- Digits, with at most one point behind some of them and at most one exponent at the end. -/
def IsReal (t : Text) : Prop :=
  ∃ whole fraction exponent, AreDigits whole ∧ whole ≠ [] ∧ IsFraction fraction ∧
    IsExponent exponent ∧ t = whole ++ fraction ++ exponent

theorem optionalDigits?_isSome {t : Text} (h : AreDigits t) : (optionalDigits? t).isSome := by
  unfold optionalDigits?
  split
  · rfl
  · next hne =>
    have hne : t ≠ [] := by simpa using hne
    rw [digits?_of_areDigits h hne]
    rfl

theorem exponent?_isSome {t : Text} (h : IsExponent t) : (exponent? t).isSome := by
  cases h with
  | none => rfl
  | @digits sign t hsign h hne =>
      have hsplit : ∃ negative, splitSign (sign :: t) = (negative, t) := by
        rcases hsign with rfl | rfl <;> exact ⟨_, rfl⟩
      obtain ⟨negative, hsplit⟩ := hsplit
      simp [exponent?, hsplit, digits?_of_areDigits h hne]

/-- Where a mark stands between two parts, a text is split into them. -/
theorem takeWhile_append_mark {p : Char → Bool} {before : Text}
    (hbefore : ∀ c ∈ before, p c = true) (behind : Text) (hbehind : ∀ c, behind.head? = some c → p c = false) :
    (before ++ behind).takeWhile p = before ∧ (before ++ behind).dropWhile p = behind := by
  rw [List.takeWhile_append_of_pos hbefore, List.dropWhile_append_of_pos hbefore]
  cases behind with
  | nil => simp
  | cons c behind => simp [hbehind c rfl]

/-- A character of a real is a digit or one of four marks. -/
theorem IsReal.mem {t : Text} (h : IsReal t) {c : Char} (hc : c ∈ t) :
    c.isDigit = true ∨ c ∈ ['.', 'e', '+', '-'] := by
  obtain ⟨whole, fraction, exponent, hwhole, -, hfraction, hexponent, rfl⟩ := h
  rcases List.mem_append.1 hc with hc | hc
  · rcases List.mem_append.1 hc with hc | hc
    · exact .inl (hwhole c hc)
    · cases hfraction with
      | none => cases hc
      | digits h => exact (List.mem_cons.1 hc).elim (fun hc => .inr (by simp [hc])) (.inl <| h c ·)
  · cases hexponent with
    | none => cases hc
    | @digits sign t hsign h _ =>
        rcases List.mem_cons.1 hc with rfl | hc
        · exact .inr (by decide)
        · rcases List.mem_cons.1 hc with rfl | hc
          · exact .inr (by rcases hsign with rfl | rfl <;> decide)
          · exact .inl (h c hc)

theorem IsReal.isBlank {t : Text} (h : IsReal t) {c : Char} (hc : c ∈ t) :
    Text.isBlank c = false := by
  rcases h.mem hc with hdigit | hmark
  · exact isBlank_of_isDigit hdigit
  · clear hc
    revert c
    decide

theorem IsReal.splitSign {t : Text} (h : IsReal t) : splitSign t = (false, t) := by
  obtain ⟨whole, fraction, exponent, hwhole, hne, -, -, rfl⟩ := h
  obtain ⟨first, others, rfl⟩ := List.exists_cons_of_ne_nil hne
  have hfirst := hwhole first List.mem_cons_self
  simp only [List.cons_append]
  unfold Numeral.splitSign
  split
  · next hcons => exact absurd (List.cons.inj hcons).1 (ne_of_isDigit hfirst (by decide))
  · next hcons => exact absurd (List.cons.inj hcons).1 (ne_of_isDigit hfirst (by decide))
  · rfl

theorem finite?_isSome {t : Text} (h : IsReal t) (negative : Bool) :
    (finite? negative t).isSome := by
  obtain ⟨whole, fraction, exponent, hwhole, hne, hfraction, hexponent, rfl⟩ := h
  have hdigits : AreDigits (fraction.drop 1) := by
    cases hfraction with
    | none => exact nofun
    | digits h => exact h
  have hmark (c : Char) (hc : c ∈ whole ++ fraction) : (!(c == 'e' || c == 'E')) = true := by
    have hc : c.isDigit = true ∨ c = '.' := by
      cases hfraction with
      | none => exact .inl (hwhole c (by simpa using hc))
      | @digits digits h =>
          rcases List.mem_append.1 hc with hc | hc
          · exact .inl (hwhole c hc)
          · exact (List.mem_cons.1 hc).elim .inr fun hc => .inl (h c hc)
    rcases hc with hc | rfl
    · simp [ne_of_isDigit hc (d := 'e') (by decide), ne_of_isDigit hc (d := 'E') (by decide)]
    · decide
  obtain ⟨hmantissa, hpower⟩ := takeWhile_append_mark hmark exponent fun c hc => by
    cases hexponent with
    | none => cases hc
    | digits => obtain rfl := Option.some.inj hc; decide
  have hpoint (c : Char) (hc : c ∈ whole) : (c != '.') = true := by
    simp [ne_of_isDigit (hwhole c hc) (d := '.') (by decide)]
  obtain ⟨hbefore, hbehind⟩ := takeWhile_append_mark (p := (· != '.')) hpoint fraction fun c hc => by
      cases hfraction with
      | none => cases hc
      | digits => obtain rfl := Option.some.inj hc; decide
  obtain ⟨power, hpower'⟩ := Option.isSome_iff_exists.1 (exponent?_isSome hexponent)
  obtain ⟨behind, hfraction'⟩ := Option.isSome_iff_exists.1 (optionalDigits?_isSome hdigits)
  have hwhole' : optionalDigits? whole = some (whole.map fun c => c.toNat - '0'.toNat) := by
    rw [optionalDigits?, if_neg (by simpa using hne), digits?_of_areDigits hwhole hne]
  simp only [finite?, hmantissa, hpower, hbefore, hbehind, hpower', hfraction', hwhole']
  simp [hne]

/-- What is written as a real is read as some number. -/
theorem real?_isSome {t : Text} (h : IsReal t) (negative : Bool) :
    (real? (sign negative ++ t)).isSome := by
  have htrim : Text.trim (sign negative ++ t) = sign negative ++ t :=
    trim_eq_self (isBlank_of_mem_sign_append fun c hc => h.isBlank hc)
  simp only [real?, htrim, splitSign_sign h.splitSign]
  split
  · rfl
  split
  · rfl
  · exact finite?_isSome h negative

end BundleHook.Numeral

namespace BundleHook.Binary64

open Numeral

theorem areDigits_twoDigits (n : Nat) :
    AreDigits (twoDigits n).toList ∧ (twoDigits n).toList ≠ [] := by
  have hdigits := areDigits_toDigits n
  rw [twoDigits, Nat.toString_eq_ofList_toDigits]
  split
  · rw [String.toList_append, String.toList_ofList, String.toList_ofList]
    exact ⟨areDigits_zero.append hdigits, by simp⟩
  · rw [String.toList_ofList]
    exact ⟨hdigits, Nat.toDigits_ne_nil⟩

theorem isReal_withExponent {whole fraction : Text} (hwhole : AreDigits whole) (hne : whole ≠ [])
    (hfraction : IsFraction fraction) (power : Int) :
    IsReal (String.ofList (whole ++ fraction) ++ (if power < 0 then "e-" else "e+") ++
      twoDigits power.natAbs).toList := by
  obtain ⟨hpower, hpowerNe⟩ := areDigits_twoDigits power.natAbs
  simp only [String.toList_append, String.toList_ofList]
  split
  · exact ⟨whole, fraction, _, hwhole, hne, hfraction, .digits (.inr rfl) hpower hpowerNe, by simp⟩
  · exact ⟨whole, fraction, _, hwhole, hne, hfraction, .digits (.inl rfl) hpower hpowerNe, by simp⟩

/-- A decimal is written as a real. -/
theorem Decimal.isReal_text (d : Decimal) : IsReal d.text.toList := by
  have hdigits := areDigits_toDigits d.digits
  have hne : Nat.toDigits 10 d.digits ≠ [] := Nat.toDigits_ne_nil
  unfold Decimal.text
  generalize Nat.toDigits 10 d.digits = digits at hdigits hne
  dsimp only
  split
  · exact ⟨['0'], ['.', '0'], [], areDigits_zero, by simp, .digits areDigits_zero, .none, rfl⟩
  split
  · next hplace =>
    rw [String.toList_ofList]
    split
    · exact ⟨['0'], _, [], areDigits_zero, by simp,
        .digits ((areDigits_zeros _).append hdigits), .none, (List.append_nil _).symm⟩
    split
    · exact ⟨_, _, [], hdigits.append (areDigits_zeros _), by simp [hne], .digits areDigits_zero,
        .none, (List.append_nil _).symm⟩
    · next hpoint hlong =>
      have htake : digits.take (digits.length + d.power).toNat ≠ [] := by
        rw [Ne, List.take_eq_nil_iff]
        rintro (hzero | hnil)
        · omega
        · exact hne hnil
      exact ⟨_, _, [], fun c hc => hdigits c (List.mem_of_mem_take hc), htake,
        .digits fun c hc => hdigits c (List.mem_of_mem_drop hc), .none, (List.append_nil _).symm⟩
  · match digits, hdigits, hne with
    | [first], hdigits, hne =>
        simpa using isReal_withExponent hdigits hne .none _
    | first :: second :: others, hdigits, _ =>
        have hfirst : AreDigits [first] := fun c hc => hdigits c (by simp_all)
        have hothers : AreDigits (second :: others) := fun c hc =>
          hdigits c (List.mem_cons_of_mem first hc)
        exact isReal_withExponent hfirst (List.cons_ne_nil _ _) (.digits hothers) _

theorem text_finite (negative : Bool) (mantissa : Nat) (exponent : Int) :
    (finite negative mantissa exponent).text.toList =
      sign negative ++ (shortest mantissa exponent).text.toList := by
  rw [text, String.toList_append]
  cases negative <;> rfl

/-- The text of a double is read as some number. -/
theorem real?_text_isSome (x : Binary64) : (real? x.text.toList).isSome := by
  cases x with
  | finite negative mantissa exponent =>
      rw [text_finite]
      exact real?_isSome (Decimal.isReal_text _) negative
  | infinite negative => cases negative <;> decide
  | undefined negative payload =>
      have hword : (real? "nan".toList).isSome := by decide
      exact hword

/-- The marks and letters that texts of doubles have besides digits. -/
def textMarks : List Char := ['.', 'e', '+', '-', 'i', 'n', 'f', 'a']

theorem mem_text {x : Binary64} {c : Char} (hc : c ∈ x.text.toList) :
    c.isDigit = true ∨ c ∈ textMarks := by
  have hmarks : ∀ c ∈ ['.', 'e', '+', '-'], c ∈ textMarks := by decide
  cases x with
  | finite negative mantissa exponent =>
      rw [text_finite, sign] at hc
      rcases List.mem_append.1 hc with hc | hc
      · split at hc
        · exact .inr (hmarks c (by simp_all))
        · cases hc
      · exact ((Decimal.isReal_text _).mem hc).imp_right (hmarks c)
  | infinite negative =>
      have hword : ∀ c ∈ (infinite negative).text.toList, c ∈ textMarks := by
        cases negative <;> decide
      exact .inr (hword c hc)
  | undefined negative payload =>
      have hword : ∀ c ∈ "nan".toList, c ∈ textMarks := by decide
      exact .inr (hword c hc)

end BundleHook.Binary64
