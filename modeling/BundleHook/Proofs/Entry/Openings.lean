import BundleHook.Entry.AppDelegate
import BundleHook.Entry.MainApplication
import BundleHook.Proofs.Code.Stretches

/-!
# How members open

Every declaration that a hook replaces, and every launch method that it is put before, opens with
one of a few words. What holds of a text that begins with such a word holds wherever one of their
patterns matches.
-/

namespace BundleHook.Entry

open Code Code.Pattern

/-- Wherever the pattern matches, the text from there on has the property. -/
def Opens (holds : Text → Prop) (pattern : Pattern) : Prop :=
  ∀ before here q, Matches pattern (placeBetween before here) q → holds here

/-- As `Opens`, but the pattern may take no text at all. -/
def MayOpen (holds : Text → Prop) (pattern : Pattern) : Prop :=
  ∀ before here q, Matches pattern (placeBetween before here) q →
    q = placeBetween before here ∨ holds here

section Patterns

variable {holds : Text → Prop} {pattern first second : Pattern}

theorem Opens.of_matchesAt (h : Opens holds pattern) {t : Text} {span : Span}
    (hmatches : pattern.MatchesAt t span) : holds (t.drop span.start) :=
  h _ _ _ hmatches.2.2

theorem Opens.both (h : Opens holds first) : Opens holds (first ++ second) := by
  intro before here q hmatches
  obtain ⟨r, hfirst, -⟩ := matches_both_iff.1 hmatches
  exact h before here r hfirst

theorem MayOpen.both_opens (h : MayOpen holds first) (hsecond : Opens holds second) :
    Opens holds (first ++ second) := by
  intro before here q hmatches
  obtain ⟨r, hfirst, hrest⟩ := matches_both_iff.1 hmatches
  rcases h before here r hfirst with rfl | hholds
  · exact hsecond before here q hrest
  · exact hholds

theorem MayOpen.both (h : MayOpen holds first) (hsecond : MayOpen holds second) :
    MayOpen holds (first ++ second) := by
  intro before here q hmatches
  obtain ⟨r, hfirst, hrest⟩ := matches_both_iff.1 hmatches
  rcases h before here r hfirst with rfl | hholds
  · exact hsecond before here q hrest
  · exact .inr hholds

theorem mayOpen_maybe (h : Opens holds pattern) : MayOpen holds (maybe pattern) := by
  intro before here q hmatches
  rcases matches_maybe_iff.1 hmatches with hmatches | rfl
  · exact .inr (h before here q hmatches)
  · exact .inl rfl

theorem mayOpen_turns (h : Opens holds pattern) : MayOpen holds (turns pattern) := by
  intro before here q hmatches
  rcases Matches.turns_iff.1 hmatches with rfl | ⟨r, hturn, -, -⟩
  · exact .inl rfl
  · exact .inr (h before here r hturn)

theorem opens_oneOf {words : List String} (h : ∀ w ∈ words, Opens holds (word w)) :
    Opens holds (oneOf words) := by
  induction words with
  | nil =>
      intro before here q hmatches
      cases hmatches with
      | one _ accepted => cases accepted
  | cons w words ih =>
      obtain ⟨hw, hwords⟩ := List.forall_mem_cons.1 h
      cases words with
      | nil => exact hw
      | cons next others =>
          intro before here q hmatches
          cases hmatches with
          | first left => exact hw before here q left
          | second right => exact ih hwords before here q right

end Patterns

/-! ## Members -/

/-- The words that a member begins with. -/
def memberWords : List String :=
  ["-", "@", "@objc", "@Override", "public", "protected", "private", "internal", "override", "open",
    "func", "void", "String"]

section Members

variable {holds : Text → Prop} (h : ∀ w ∈ memberWords, Opens holds (word w))

include h

theorem opens_words {words : List String} (hwords : words ⊆ memberWords) :
    Opens holds (oneOf words) :=
  opens_oneOf fun w hw => h w (hwords hw)

theorem opens_kotlinBundleMethod : Opens holds kotlinBundleMethod := by
  unfold kotlinBundleMethod
  iterate 6 apply Opens.both
  exact (mayOpen_maybe (opens_words h (by decide)).both).both_opens (h _ (by decide))

theorem opens_javaAnnotation : Opens holds javaAnnotation := (h _ (by decide)).both.both

theorem opens_javaBundleMethod : Opens holds javaBundleMethod := by
  unfold javaBundleMethod
  iterate 3 apply Opens.both
  have hmark := opens_javaAnnotation h
  exact (((mayOpen_turns hmark).both (mayOpen_maybe (opens_words h (by decide)).both)).both
    (mayOpen_maybe hmark)).both_opens (h _ (by decide))

theorem opens_swiftBundleMethod : Opens holds swiftBundleMethod := by
  unfold swiftBundleMethod
  iterate 8 apply Opens.both
  exact ((mayOpen_maybe (h _ (by decide)).both).both
    (mayOpen_maybe (opens_words h (by decide)).both)).both_opens (h _ (by decide))

theorem opens_objectiveCBundleMethod : Opens holds objectiveCBundleMethod := by
  unfold objectiveCBundleMethod
  iterate 11 apply Opens.both
  exact h _ (by decide)

theorem opens_kotlinLaunchMethod : Opens holds MainApplication.kotlinLaunchMethod := by
  unfold MainApplication.kotlinLaunchMethod
  iterate 6 apply Opens.both
  exact (mayOpen_maybe (opens_words h (by decide)).both).both_opens (h _ (by decide))

theorem opens_javaLaunchMethod : Opens holds MainApplication.javaLaunchMethod := by
  unfold MainApplication.javaLaunchMethod
  iterate 4 apply Opens.both
  exact ((mayOpen_maybe (h _ (by decide)).both).both
    (mayOpen_maybe (opens_words h (by decide)).both)).both_opens (h _ (by decide))

theorem opens_swiftLaunchMethod : Opens holds AppDelegate.swiftLaunchMethod := by
  unfold AppDelegate.swiftLaunchMethod
  iterate 17 apply Opens.both
  exact (mayOpen_turns (opens_words h (by decide)).both).both_opens (h _ (by decide))

theorem opens_objectiveCLaunchMethod : Opens holds AppDelegate.objectiveCLaunchMethod := by
  unfold AppDelegate.objectiveCLaunchMethod
  iterate 24 apply Opens.both
  exact h _ (by decide)

end Members

end BundleHook.Entry
