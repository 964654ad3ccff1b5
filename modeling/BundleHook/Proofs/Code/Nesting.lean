import Mathlib.Data.List.Induction
import BundleHook.Proofs.Code.Passage

/-!
# Nested delimiters

A part of a text is balanced when its closers never outnumber its openers and are as many in the
end. What is open before some code stays open through balanced code, and the closer of it is looked
for behind the code.

* `openAfter` — how much is open behind some code;
* `KeepsOpen`, `Balanced` — the same by what is met in the code;
* `closeAmong_append`, `exists_of_closeAmong` — where the closer is.
-/

namespace BundleHook.Code

open Text

/-! ## What is open behind some code -/

section Open

variable (opener closer : Char)

/-- How many openers are open behind the code when `depth` are open before it; `none` when it closes
them all. -/
def openAfter : (depth : Nat) → Text → Option Nat
  | depth, [] => some depth
  | depth, c :: code =>
    if c = opener then openAfter (depth + 1) code
    else if c = closer then if depth ≤ 1 then none else openAfter (depth - 1) code
    else openAfter depth code

/-- The code closes nothing that it does not open. -/
def KeepsOpen (code : Text) : Prop :=
  ∀ before, before <+: code → before.count closer ≤ before.count opener

/-- The code closes nothing that it does not open, and all that it opens. -/
structure Balanced (code : Text) : Prop where
  keepsOpen : KeepsOpen opener closer code
  even : code.count opener = code.count closer

end Open

section Among

variable {opener closer : Char} {depth left : Nat} {code others : Text}

theorem openAfter_append (depth : Nat) (code others : Text) :
    openAfter opener closer depth (code ++ others) =
      (openAfter opener closer depth code).bind (openAfter opener closer · others) := by
  induction code generalizing depth with
  | nil => rfl
  | cons c code ih =>
      simp only [List.cons_append, openAfter, ih]
      split
      · rfl
      · split
        · split
          · rfl
          · rfl
        · rfl

/-- Code without the delimiters leaves open what is open. -/
theorem openAfter_of_not_mem (h : ∀ c ∈ code, c ≠ opener ∧ c ≠ closer) (depth : Nat) :
    openAfter opener closer depth code = some depth := by
  induction code with
  | nil => rfl
  | cons c code ih =>
      obtain ⟨hc, hcode⟩ := List.forall_mem_cons.1 h
      rw [openAfter, if_neg hc.1, if_neg hc.2, ih hcode]

theorem one_le_of_openAfter (hdepth : 1 ≤ depth)
    (h : openAfter opener closer depth code = some left) : 1 ≤ left := by
  fun_induction openAfter opener closer depth code with
  | case1 => exact Option.some.inj h ▸ hdepth
  | case2 _ _ ih => exact ih (by omega) h
  | case3 => cases h
  | case4 _ _ _ _ ih => exact ih (by omega) h
  | case5 _ _ _ _ _ ih => exact ih hdepth h

/-- What is open besides stays open. -/
theorem openAfter_add (hdepth : 1 ≤ depth) (h : openAfter opener closer depth code = some left)
    (more : Nat) : openAfter opener closer (depth + more) code = some (left + more) := by
  fun_induction openAfter opener closer depth code with
  | case1 => rw [openAfter, Option.some.inj h]
  | case2 depth code ih =>
      rw [openAfter, if_pos rfl, Nat.add_right_comm]
      exact ih (by omega) h
  | case3 => cases h
  | case4 depth code hmore hopens ih =>
      rw [openAfter, if_neg hopens, if_pos rfl, if_neg (by omega),
        Nat.sub_add_comm (by omega)]
      exact ih (by omega) h
  | case5 depth c code hopens hcloses ih =>
      rw [openAfter, if_neg hopens, if_neg hcloses]
      exact ih hdepth h

/-- What is open behind some code, by what is met in it. -/
theorem openAfter_eq_some_iff (hne : opener ≠ closer) (hdepth : 1 ≤ depth) :
    openAfter opener closer depth code = some left ↔
      (∀ before, before <+: code → before.count closer < depth + before.count opener) ∧
        left + code.count closer = depth + code.count opener := by
  have hprefixes (c : Char) (code : Text) (holds : Text → Prop) :
      (∀ before, before <+: c :: code → holds before) ↔
        holds [] ∧ ∀ before, before <+: code → holds (c :: before) := by
    simp only [List.prefix_cons_iff, forall_eq_or_imp, forall_exists_index, and_imp]
    exact and_congr_right' ⟨fun h before hbefore => h _ before rfl hbefore,
      fun h before rest hbefore hrest => hbefore ▸ h rest hrest⟩
  induction code generalizing depth with
  | nil =>
      simp only [openAfter, Option.some.injEq, List.prefix_nil, forall_eq, List.count_nil,
        Nat.add_zero]
      omega
  | cons c code ih =>
      rw [openAfter, hprefixes]
      simp only [List.count_cons, List.count_nil, beq_iff_eq]
      by_cases hopens : c = opener
      · subst hopens
        simp only [if_true, if_neg hne]
        refine (ih (Nat.le_add_left 1 depth)).trans (and_congr ⟨fun h => ⟨by omega, ?_⟩, ?_⟩ (by omega))
        · intro before hbefore
          have hlt := h before hbefore
          omega
        · rintro ⟨-, h⟩ before hbefore
          have hlt := h before hbefore
          omega
      by_cases hcloses : c = closer
      · subst hcloses
        simp only [if_true, if_neg hopens]
        split
        · next hlast =>
          -- The closer balances the last opener.
          refine iff_of_false (fun h => by cases h) ?_
          rintro ⟨⟨-, h⟩, -⟩
          have hlt := h [] List.nil_prefix
          simp only [List.count_nil] at hlt
          omega
        · next hmore =>
          have hdepth' : 1 ≤ depth - 1 := by omega
          refine (ih hdepth').trans (and_congr ⟨fun h => ⟨by omega, ?_⟩, ?_⟩ (by omega))
          · intro before hbefore
            have hlt := h before hbefore
            omega
          · rintro ⟨-, h⟩ before hbefore
            have hlt := h before hbefore
            omega
      · simp only [if_neg hopens, if_neg hcloses]
        refine (ih hdepth).trans (and_congr_left' ⟨fun h => ⟨by omega, h⟩, fun h => h.2⟩)

theorem balanced_iff (hne : opener ≠ closer) :
    Balanced opener closer code ↔ openAfter opener closer 1 code = some 1 := by
  rw [openAfter_eq_some_iff hne (Nat.le_refl 1)]
  constructor
  · rintro ⟨hkeeps, heven⟩
    refine ⟨fun before hbefore => ?_, by omega⟩
    have hle := hkeeps before hbefore
    omega
  · rintro ⟨hkeeps, heven⟩
    refine ⟨fun before hbefore => ?_, by omega⟩
    have hlt := hkeeps before hbefore
    omega

theorem keepsOpen_iff (hne : opener ≠ closer) :
    KeepsOpen opener closer code ↔ ∃ left, openAfter opener closer 1 code = some left := by
  simp only [openAfter_eq_some_iff hne (Nat.le_refl 1), exists_and_left]
  constructor
  · intro hkeeps
    have hle := hkeeps code List.prefix_rfl
    refine ⟨fun before hbefore => ?_, 1 + code.count opener - code.count closer, by omega⟩
    have hle := hkeeps before hbefore
    omega
  · rintro ⟨hkeeps, -⟩ before hbefore
    have hlt := hkeeps before hbefore
    omega

end Among

/-! ## Closers behind some code -/

section Closers

variable {opener closer : Char} {depth left n j : Nat} {before after places : List (Nat × Char)}

/-- A closer is looked for behind the places that leave something open. -/
theorem closeAmong_append (h : openAfter opener closer depth (before.map Prod.snd) = some left) :
    closeAmong opener closer depth (before ++ after) = closeAmong opener closer left after := by
  induction before generalizing depth with
  | nil => rw [List.nil_append, Option.some.inj h]
  | cons place before ih =>
      obtain ⟨index, c⟩ := place
      simp only [List.map_cons, openAfter] at h
      rw [List.cons_append, closeAmong]
      split at h
      · next hopens => rw [if_pos hopens, ih h]
      · next hopens =>
        rw [if_neg hopens]
        split at h
        · next hcloses =>
          rw [if_pos hcloses]
          split at h
          · cases h
          · next hmore => rw [if_neg hmore, ih h]
        · next hcloses => rw [if_neg hcloses, ih h]

/-- Places that leave nothing open hold the closer. -/
theorem exists_closeAmong (h : openAfter opener closer depth (before.map Prod.snd) = none) :
    ∃ j ∈ before.map Prod.fst,
      ∀ after, closeAmong opener closer depth (before ++ after) = some j := by
  induction before generalizing depth with
  | nil => cases h
  | cons place before ih =>
      obtain ⟨index, c⟩ := place
      have hlater {depth : Nat} (h : openAfter opener closer depth (before.map Prod.snd) = none) :
          ∃ j ∈ ((index, c) :: before).map Prod.fst,
            ∀ after, closeAmong opener closer depth (before ++ after) = some j := by
        obtain ⟨j, hj, hclose⟩ := ih h
        exact ⟨j, List.mem_cons_of_mem _ hj, hclose⟩
      simp only [List.map_cons, openAfter] at h
      simp only [List.cons_append, closeAmong]
      split at h
      · next hopens =>
        simp only [if_pos hopens]
        exact hlater h
      · next hopens =>
        simp only [if_neg hopens]
        split at h
        · next hcloses =>
          simp only [if_pos hcloses]
          split at h
          · next hlast => exact ⟨index, List.mem_cons_self, fun _ => if_pos hlast⟩
          · next hmore =>
            simp only [if_neg hmore]
            exact hlater h
        · next hcloses =>
          simp only [if_neg hcloses]
          exact hlater h

/-- Before a closer that is found there is one opener left to balance. -/
theorem exists_of_closeAmong (hdepth : 1 ≤ depth)
    (h : closeAmong opener closer depth places = some j) :
    ∃ before after, places = before ++ (j, closer) :: after ∧
      openAfter opener closer depth (before.map Prod.snd) = some 1 := by
  induction places generalizing depth with
  | nil => cases h
  | cons place places ih =>
      obtain ⟨index, c⟩ := place
      have hlater {depth : Nat} (hdepth : 1 ≤ depth)
          (h : closeAmong opener closer depth places = some j) :
          ∃ before after, (index, c) :: places = (index, c) :: before ++ (j, closer) :: after ∧
            openAfter opener closer depth (before.map Prod.snd) = some 1 := by
        obtain ⟨before, after, rfl, hopen⟩ := ih hdepth h
        exact ⟨before, after, rfl, hopen⟩
      rw [closeAmong] at h
      split at h
      · next hopens =>
        obtain ⟨before, after, hsplit, hopen⟩ := hlater (by omega) h
        exact ⟨_, after, hsplit, by rwa [List.map_cons, openAfter, if_pos hopens]⟩
      · next hopens =>
        split at h
        · next hcloses =>
          split at h
          · obtain rfl := Option.some.inj h
            obtain rfl : depth = 1 := by omega
            exact ⟨[], places, by rw [hcloses]; rfl, rfl⟩
          · next hmore =>
            obtain ⟨before, after, hsplit, hopen⟩ := hlater (by omega) h
            exact ⟨_, after, hsplit,
              by rwa [List.map_cons, openAfter, if_neg hopens, if_pos hcloses, if_neg hmore]⟩
        · next hcloses =>
          obtain ⟨before, after, hsplit, hopen⟩ := hlater hdepth h
          exact ⟨_, after, hsplit,
            by rwa [List.map_cons, openAfter, if_neg hopens, if_neg hcloses]⟩

theorem closeAmong_shift (more depth : Nat) (places : List (Nat × Char)) :
    closeAmong opener closer depth (shift more places) =
      (closeAmong opener closer depth places).map (more + ·) := by
  induction places generalizing depth with
  | nil => rfl
  | cons place places ih =>
      obtain ⟨index, c⟩ := place
      have hcons : shift more ((index, c) :: places) = (more + index, c) :: shift more places := rfl
      rw [hcons, closeAmong, closeAmong]
      split
      · exact ih _
      · split
        · split
          · rfl
          · exact ih _
        · exact ih _

/-- A closer is found from one depth only. -/
theorem closeAmong_inj {other : Nat} (hsorted : places.Pairwise (·.1 < ·.1)) (hdepth : 1 ≤ depth)
    (hother : 1 ≤ other) (h : closeAmong opener closer depth places = some j)
    (h' : closeAmong opener closer other places = some j) : depth = other := by
  have hnot {depth more : Nat} (hdepth : 1 ≤ depth) (hmore : 1 ≤ more)
      (h : closeAmong opener closer depth places = some j)
      (h' : closeAmong opener closer (depth + more) places = some j) : False := by
    obtain ⟨m, hlt, -, hm⟩ := closeAmong_of_deeper hsorted hdepth hmore h'
    rw [hm] at h
    exact absurd (Option.some.inj h) (Nat.ne_of_lt hlt)
  rcases Nat.lt_trichotomy depth other with hlt | heq | hlt
  · obtain ⟨more, rfl⟩ := Nat.exists_eq_add_of_lt hlt
    exact (hnot hdepth (Nat.le_add_left 1 more) h h').elim
  · exact heq
  · obtain ⟨more, rfl⟩ := Nat.exists_eq_add_of_lt hlt
    exact (hnot hother (Nat.le_add_left 1 more) h' h).elim

/-- Among the openers that are open behind some places there is one that has as few behind it as
one likes. -/
theorem exists_opener_of_openAfter (hn : 1 ≤ n)
    (h : openAfter opener closer depth (places.map Prod.snd) = some left) (hle : depth + n ≤ left) :
    ∃ before k after, places = before ++ (k, opener) :: after ∧
      openAfter opener closer 1 (after.map Prod.snd) = some n := by
  induction places using List.reverseRecOn generalizing left n with
  | nil =>
      obtain rfl := Option.some.inj h
      omega
  | append_singleton places place ih =>
      obtain ⟨index, c⟩ := place
      rw [List.map_append, openAfter_append, Option.bind_eq_some_iff] at h
      obtain ⟨middle, hplaces, hlast⟩ := h
      -- An opener before the last place, with what the last place adds.
      have hlater {m : Nat} (hm : 1 ≤ m) (hle : depth + m ≤ middle)
          (hlast : openAfter opener closer m [c] = some n) :
          ∃ before k after, places ++ [(index, c)] = before ++ (k, opener) :: after ∧
            openAfter opener closer 1 (after.map Prod.snd) = some n := by
        obtain ⟨before, k, after, rfl, hopen⟩ := ih hm hplaces hle
        refine ⟨before, k, after ++ [(index, c)], by simp, ?_⟩
        rw [List.map_append, openAfter_append, hopen]
        exact hlast
      simp only [List.map_cons, List.map_nil, openAfter] at hlast hlater
      split at hlast
      · next hopens =>
        obtain rfl := Option.some.inj hlast
        rcases Nat.eq_or_lt_of_le hn with rfl | hmore
        · exact ⟨places, index, [], by rw [hopens], rfl⟩
        · exact hlater (m := n - 1) (by omega) (by omega) (by rw [if_pos hopens]; congr 1; omega)
      · next hopens =>
        split at hlast
        · next hcloses =>
          split at hlast
          · cases hlast
          · obtain rfl := Option.some.inj hlast
            refine hlater (m := n + 1) (by omega) (by omega) ?_
            rw [if_neg hopens, if_pos hcloses, if_neg (by omega), Nat.add_sub_cancel]
        · next hcloses =>
          obtain rfl := Option.some.inj hlast
          exact hlater hn hle (by rw [if_neg hopens, if_neg hcloses])

end Closers

end BundleHook.Code
