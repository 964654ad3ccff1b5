import BundleHook.Proofs.Text.LineSplicing
import Mathlib.Data.List.Basic

/-!
# How lines end

A text ends its lines with a line feed alone or with a carriage return before it. Where two texts
meet, no line feed gets another character before it, unless the second text begins with one.

* `AllReturned`, `NoneReturned`: the two conventions;
* `everyFeed_append`, `everyFeed_append_of_endsLine`: conventions of a text made of two.
-/

namespace BundleHook.Text

/-- What stands before a line feed of the text, if anything, is good. -/
def EveryFeed (good : Option Char → Prop) (t : Text) : Prop :=
  ∀ before behind, t = before ++ '\n' :: behind → good before.getLast?

/-- Every line feed follows a carriage return. -/
abbrev AllReturned (t : Text) : Prop := EveryFeed (· = some '\r') t

/-- No line feed follows a carriage return. -/
abbrev NoneReturned (t : Text) : Prop := EveryFeed (· ≠ some '\r') t

section

variable {good : Option Char → Prop} {a b : Text}

theorem everyFeed_of_notMem (h : '\n' ∉ b) : EveryFeed good b := by
  rintro before behind rfl
  exact absurd (List.mem_append_right before List.mem_cons_self) h

theorem EveryFeed.left (h : EveryFeed good (a ++ b)) : EveryFeed good a := by
  rintro before behind rfl
  exact h before (behind ++ b) (by simp)

/-- A line feed of a text that follows another one stands behind a character of its own text, or
that text begins with it. -/
theorem EveryFeed.append (ha : EveryFeed good a) (hb : EveryFeed good b)
    (hfirst : b.head? = some '\n' → good a.getLast?) : EveryFeed good (a ++ b) := by
  intro before behind hsplit
  rcases List.append_eq_append_iff.1 hsplit with ⟨front, rfl, hfront⟩ | ⟨rest, rfl, hrest⟩
  · cases front with
    | nil =>
        rw [List.append_nil]
        exact hfirst (by rw [hfront]; rfl)
    | cons c front =>
        rw [List.getLast?_append_cons]
        exact hb _ behind hfront
  · cases rest with
    | nil =>
        rw [List.append_nil] at hfirst
        exact hfirst (by rw [← List.nil_append b, ← hrest]; rfl)
    | cons c rest =>
        obtain ⟨rfl, -⟩ := List.cons.inj hrest
        exact ha before rest rfl

theorem EveryFeed.right (h : EveryFeed good (a ++ b))
    (hfirst : b.head? = some '\n' → good a.getLast? → good none) : EveryFeed good b := by
  rintro before behind rfl
  have hwhole := h (a ++ before) behind (by simp)
  cases before with
  | nil =>
      rw [List.append_nil] at hwhole
      exact hfirst rfl hwhole
  | cons c before =>
      rwa [List.getLast?_append_cons] at hwhole

theorem everyFeed_append (hb : b.head? ≠ some '\n') :
    EveryFeed good (a ++ b) ↔ EveryFeed good a ∧ EveryFeed good b :=
  ⟨fun h => ⟨h.left, h.right fun hfirst => absurd hfirst hb⟩,
    fun h => h.1.append h.2 fun hfirst => absurd hfirst hb⟩

/-- A text without line feeds takes the place of a part of another one that no line feed follows. -/
theorem EveryFeed.splice {t x : Text} (h : EveryFeed good t) (start : Nat) {stop : Nat}
    (hx : '\n' ∉ x) (hstop : t[stop]? ≠ some '\n') :
    EveryFeed good (t.take start ++ x ++ t.drop stop) := by
  have hrest : (t.drop stop).head? ≠ some '\n' := by rwa [List.head?_drop]
  have hfirst : x.head? ≠ some '\n' := fun hhead => hx (List.mem_of_head? hhead)
  have hfront : EveryFeed good (t.take start ++ t.drop start) := by rwa [List.take_append_drop]
  have hbehind : EveryFeed good (t.take stop ++ t.drop stop) := by rwa [List.take_append_drop]
  rw [everyFeed_append hrest, everyFeed_append hfirst]
  exact ⟨⟨hfront.left, everyFeed_of_notMem hx⟩, ((everyFeed_append hrest).1 hbehind).2⟩

/-- A single line with its line feed. -/
theorem everyFeed_line (ha : '\n' ∉ a) : EveryFeed good (a ++ ['\n']) ↔ good a.getLast? := by
  refine ⟨fun h => h a [] rfl, fun h before behind hsplit => ?_⟩
  rcases List.append_eq_append_iff.1 hsplit with ⟨front, rfl, hfront⟩ | ⟨rest, rfl, hrest⟩
  · cases front with
    | nil => rwa [List.append_nil]
    | cons c front => simp at hfront
  · cases rest with
    | nil => rwa [List.append_nil] at h
    | cons c rest =>
        obtain ⟨rfl, -⟩ := List.cons.inj hrest
        exact absurd (List.mem_append_right before List.mem_cons_self) ha

/-- Whole lines keep their ends among other lines. -/
theorem everyFeed_append_of_endsLine (hgood : good none ↔ good (some '\n')) (ha : EndsLine a) :
    EveryFeed good (a ++ b) ↔ EveryFeed good a ∧ EveryFeed good b := by
  have hlast : good a.getLast? ↔ good none := by
    rcases ha with rfl | hfeed
    · exact Iff.rfl
    · rw [hfeed, hgood]
  refine ⟨fun h => ⟨h.left, h.right fun _ => hlast.1⟩, fun h => h.1.append h.2 fun hfirst => ?_⟩
  obtain ⟨rest, rfl⟩ := List.head?_eq_some_iff.1 hfirst
  exact hlast.2 (h.2 [] rest rfl)

/-- The line feeds of a text by their offsets. -/
theorem everyFeed_iff_getElem? {t : Text} :
    EveryFeed good t ↔
      ∀ i < t.length, t[i]? = some '\n' → good (t.take i).getLast? := by
  constructor
  · intro h i hi hfeed
    refine h (t.take i) (t.drop (i + 1)) ?_
    obtain ⟨hlt, hget⟩ := List.getElem?_eq_some_iff.1 hfeed
    rw [← hget, ← List.drop_eq_getElem_cons hlt, List.take_append_drop]
  · rintro h before behind rfl
    have hfeed := h before.length (by simp) (by simp)
    rwa [List.take_left] at hfeed

end

instance (good : Option Char → Prop) [DecidablePred good] (t : Text) :
    Decidable (EveryFeed good t) :=
  decidable_of_iff _ everyFeed_iff_getElem?.symm

end BundleHook.Text
