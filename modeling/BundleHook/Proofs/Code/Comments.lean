import BundleHook.Code.Splice
import BundleHook.Proofs.Code.LookAhead
import BundleHook.Proofs.Text.Parts

/-!
# Comments

A scan of a text steps over its literals and comments. `literals` lists what it steps over, so that
every offset of the text is either code or inside one of them. `withoutComments` is the text with
its comments blanked: the line structure, the literals and the code stay as they are.

* `isCode_iff` — code is what lies in no literal;
* `exists_opensComment` — a comment begins with its mark;
* `withoutComments` — the text with its comments blanked.
-/

namespace BundleHook.Code

open Text

/-! ## What a scan steps over -/

/-- The literals and comments in a text whose head has the offset `index`; the next `skip` characters
belong to one already. -/
def literalsFrom : (index skip : Nat) → Text → List Span
  | _, _, [] => []
  | index, skip + 1, _ :: rest => literalsFrom (index + 1) skip rest
  | index, 0, c :: rest =>
    match literalLength (c :: rest) with
    | length + 1 => ⟨index, index + (length + 1)⟩ :: literalsFrom (index + 1) length rest
    | 0 => literalsFrom (index + 1) 0 rest

/-- The literals and comments that a scan of the text from its start steps over. -/
def literals (t : Text) : List Span := literalsFrom 0 0 t

/-- Is the literal at the head of a text a line comment or a block comment? -/
def opensComment : Text → Bool
  | '/' :: c :: _ => c == '/' || c == '*'
  | _ => false

/-- The offset belongs to a literal or a comment. -/
def InLiteral (t : Text) (i : Nat) : Prop := ∃ span ∈ literals t, span.start ≤ i ∧ i < span.stop

/-- The offset belongs to a comment. -/
def InComment (t : Text) (i : Nat) : Prop :=
  ∃ span ∈ literals t,
    opensComment (t.drop span.start) = true ∧ span.start ≤ i ∧ i < span.stop

instance (t : Text) (i : Nat) : Decidable (InLiteral t i) :=
  List.decidableBEx _ _

instance (t : Text) (i : Nat) : Decidable (InComment t i) :=
  List.decidableBEx _ _

theorem InComment.inLiteral {t : Text} {i : Nat} (h : InComment t i) : InLiteral t i := by
  obtain ⟨span, hspan, -, hinside⟩ := h
  exact ⟨span, hspan, hinside⟩

theorem add_le_of_mem_literalsFrom {index skip : Nat} {t : Text} {span : Span}
    (h : span ∈ literalsFrom index skip t) : index + skip ≤ span.start := by
  induction t generalizing index skip with
  | nil => cases skip <;> cases h
  | cons c rest ih =>
      cases skip with
      | succ skip => have := ih h; omega
      | zero =>
          rw [literalsFrom] at h
          split at h
          · rcases List.mem_cons.1 h with rfl | h
            · exact Nat.le_refl _
            · have := ih h; omega
          · have := ih h; omega

/-- Code and literals share the text between them. -/
theorem exists_mem_scanFrom_iff {index skip i : Nat} {t : Text} (hi : index + skip ≤ i) :
    (∃ c, (i, c) ∈ scanFrom index skip t) ↔
      i < index + t.length ∧
        ¬∃ span ∈ literalsFrom index skip t, span.start ≤ i ∧ i < span.stop := by
  induction t generalizing index skip with
  | nil =>
      have hscan : scanFrom index skip [] = [] := by cases skip <;> rfl
      simp only [hscan, List.not_mem_nil, exists_false, List.length_nil, false_iff]
      omega
  | cons c rest ih =>
      have hlength : index + (c :: rest).length = index + 1 + rest.length := by
        rw [List.length_cons]; omega
      rw [hlength]
      cases skip with
      | succ skip => exact ih (by omega)
      | zero =>
          rcases hliteral : literalLength (c :: rest) with _ | length
          · rw [scanFrom_code hliteral, literalsFrom, hliteral]
            rcases Nat.eq_or_lt_of_le hi with rfl | hlt
            · refine iff_of_true ⟨c, List.mem_cons_self⟩ ⟨by omega, ?_⟩
              rintro ⟨span, hspan, hstart, -⟩
              have := add_le_of_mem_literalsFrom hspan
              omega
            · rw [← ih (by omega)]
              refine exists_congr fun d => ⟨fun h => ?_, List.mem_cons_of_mem _⟩
              rcases List.mem_cons.1 h with h | h
              · obtain ⟨rfl, -⟩ := Prod.mk.inj h
                omega
              · exact h
          · rw [scanFrom_literal hliteral, literalsFrom, hliteral]
            simp only [List.mem_cons, exists_eq_or_imp, not_or]
            rcases Nat.lt_or_ge i (index + (length + 1)) with hlt | hge
            · refine iff_of_false ?_ fun h => h.2.1 ⟨by omega, hlt⟩
              rintro ⟨d, h⟩
              have := add_le_of_mem_scanFrom h
              omega
            · rw [ih (by omega)]
              exact and_congr_right fun _ => ⟨fun h => ⟨fun hin => by omega, h⟩, And.right⟩

/-- A place is code exactly when it lies in the text and in no literal. -/
theorem isCode_iff {t : Text} {i : Nat} :
    (∃ c, (i, c) ∈ scan t 0) ↔ i < t.length ∧ ¬InLiteral t i := by
  have h := @exists_mem_scanFrom_iff 0 0 i t (Nat.zero_le i)
  rwa [Nat.zero_add] at h

theorem not_inLiteral_of_mem_scan {t : Text} {i : Nat} {c : Char} (h : (i, c) ∈ scan t 0) :
    ¬InLiteral t i := (isCode_iff.1 ⟨c, h⟩).2

theorem not_inComment_of_mem_scan {t : Text} {i : Nat} {c : Char} (h : (i, c) ∈ scan t 0) :
    ¬InComment t i := fun hin => not_inLiteral_of_mem_scan h hin.inLiteral

/-! ## Where comments begin -/

theorem opensComment_iff {t : Text} :
    opensComment t = true ↔ t.head? = some '/' ∧ (t[1]? = some '/' ∨ t[1]? = some '*') := by
  rcases t with _ | ⟨c, _ | ⟨d, rest⟩⟩
  · simp [opensComment]
  · simp [opensComment]
  · by_cases hc : c = '/'
    · subst hc
      simp [opensComment]
    · simp [opensComment, hc]

/-- Between a place outside comments and one inside a comment the comment begins, with its mark. -/
theorem exists_opensComment {t : Text} {i j : Nat} (hi : ¬InComment t i) (hj : InComment t j)
    (hle : i ≤ j) : ∃ k, i < k ∧ k ≤ j ∧ opensComment (t.drop k) = true := by
  obtain ⟨span, hspan, hopens, hstart, hstop⟩ := hj
  refine ⟨span.start, ?_, hstart, hopens⟩
  by_contra hge
  exact hi ⟨span, hspan, hopens, by omega, by omega⟩

/-- A part of a text that starts outside comments and holds no mark of a comment behind its first
character is wholly outside comments. -/
theorem not_inComment_of_slice {t : Text} {i stop : Nat} (hi : ¬InComment t i)
    (hmark : ∀ k, i < k → k < stop → opensComment (t.drop k) = false) {j : Nat} (hle : i ≤ j)
    (hj : j < stop) : ¬InComment t j := by
  intro hin
  obtain ⟨k, hik, hkj, hopens⟩ := exists_opensComment hi hin hle
  rw [hmark k hik (by omega)] at hopens
  cases hopens

/-! ## Blanking comments -/

/-- The text with a space in the place of every character of a comment; line feeds stay. -/
def withoutComments (t : Text) : Text :=
  t.mapIdx fun i c => if InComment t i ∧ c ≠ '\n' then ' ' else c

section Blanked

variable {t : Text} {i : Nat}

@[simp]
theorem length_withoutComments (t : Text) : (withoutComments t).length = t.length :=
  List.length_mapIdx

theorem getElem?_withoutComments (t : Text) (i : Nat) :
    (withoutComments t)[i]? = t[i]?.map fun c => if InComment t i ∧ c ≠ '\n' then ' ' else c :=
  List.getElem?_mapIdx

theorem getElem?_withoutComments_of_not_inComment (h : ¬InComment t i) :
    (withoutComments t)[i]? = t[i]? := by
  simp [getElem?_withoutComments, h]

/-- Nothing but blanks is put in. -/
theorem getElem?_of_withoutComments {c : Char} (h : (withoutComments t)[i]? = some c)
    (hc : c ≠ ' ') : t[i]? = some c := by
  rw [getElem?_withoutComments, Option.map_eq_some_iff] at h
  obtain ⟨d, hd, hif⟩ := h
  split at hif
  · exact absurd hif.symm hc
  · rw [hd, hif]

/-- A character of a comment is blank in the blanked text. -/
theorem isBlank_of_inComment {c : Char} (hin : InComment t i)
    (h : (withoutComments t)[i]? = some c) : isBlank c = true := by
  rw [getElem?_withoutComments, Option.map_eq_some_iff] at h
  obtain ⟨d, -, rfl⟩ := h
  by_cases hd : d = '\n'
  · subst hd
    simp only [ne_eq, not_true_eq_false, and_false, if_false]
    decide
  · rw [if_pos ⟨hin, hd⟩]
    decide

/-- A part of the text that lies outside comments stays as it is. -/
theorem slice_withoutComments {stop : Nat} (h : ∀ j, i ≤ j → j < stop → ¬InComment t j) :
    slice (withoutComments t) i stop = slice t i stop := by
  refine List.ext_getElem? fun n => ?_
  simp only [slice, List.getElem?_drop, List.getElem?_take]
  split
  · exact getElem?_withoutComments_of_not_inComment (h _ (by omega) (by assumption))
  · rfl

end Blanked

end BundleHook.Code
