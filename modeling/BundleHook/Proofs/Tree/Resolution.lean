import BundleHook.Proofs.Tree.Walks

/-!
# Resolved paths

Following links ends, unless it runs into a circle, at a path that no link stands in, and such a
path is its own resolution.
-/

namespace BundleHook.Tree

open Path

section Steps

variable {t : Tree} {here : Path} {name : Text}

theorem follow_of_step (hstep : IsStep name)
    (hentry : ∀ target, t.entry? (here.child name) ≠ some (.link target)) (fresh : List Path)
    (others : List Text) :
    t.follow fresh here (name :: others) = t.follow fresh (here.child name) others := by
  rw [follow, if_neg (by simp [hstep.1]), if_neg hstep.2]
  split
  · next target hlink => exact absurd hlink (hentry target)
  · rfl

end Steps

theorem linkFree_startOf {t : Tree} {here : Path} (hhere : t.LinkFree here) (target : Text) :
    t.LinkFree (startOf here target) := by
  unfold startOf
  split
  · exact t.linkFree_top
  · exact hhere

/-- Following links from a path without any arrives at such a path. -/
theorem linkFree_of_follow {t : Tree} {fresh : List Path} {here p : Path} {names : List Text}
    (hhere : t.LinkFree here) (h : t.follow fresh here names = .plain p) : t.LinkFree p := by
  fun_induction follow t fresh here names generalizing p with
  | case1 =>
      obtain rfl := Destination.plain.inj h
      exact hhere
  | case2 _ _ _ _ _ ih => exact ih hhere h
  | case3 _ _ _ _ ih => exact ih hhere.parent h
  | case4 fresh here name others _ _ target _ _ path hpath ihtarget ih =>
      exact ih (ihtarget (linkFree_startOf hhere target) hpath) h
  | case5 => cases h
  | case6 => cases h
  | case7 fresh here name others hstays hup hentry ih =>
      exact ih (hhere.child ⟨by simpa using hstays, hup⟩ hentry) h

/-- Following links goes straight through a path without any. -/
theorem follow_of_linkFree {t : Tree} {here : Path} {names : List Text}
    (h : t.LinkFree ⟨here.names ++ names⟩) (fresh : List Path) (others : List Text) :
    t.follow fresh here (names ++ others) = t.follow fresh ⟨here.names ++ names⟩ others := by
  induction names generalizing here with
  | nil => simp
  | cons name names ih =>
      have hsplit : here.names ++ name :: names = (here.child name).names ++ names := by
        simp [child]
      rw [hsplit] at h ⊢
      rw [List.cons_append, follow_of_step (h.isStep name (by simp [child]))
        (h.noLink _ (List.prefix_append _ names)), ih h]

/-! ### Trees with the same links -/

/-- Both lists hold every link of the tree equally often. -/
def SameLinks (t : Tree) (fresh fresh' : List Path) : Prop :=
  ∀ p target, t.entry? p = some (.link target) → fresh'.count p = fresh.count p

theorem SameLinks.mem_iff {t : Tree} {fresh fresh' : List Path} (h : t.SameLinks fresh fresh')
    {p : Path} {target : Text} (hp : t.entry? p = some (.link target)) :
    p ∈ fresh' ↔ p ∈ fresh := by
  rw [← List.count_pos_iff, h p target hp, List.count_pos_iff]

theorem SameLinks.erase {t : Tree} {fresh fresh' : List Path} (h : t.SameLinks fresh fresh')
    (p : Path) : t.SameLinks (fresh.erase p) (fresh'.erase p) := by
  intro q target hq
  rw [List.count_erase, List.count_erase, h q target hq]

/-- Following links looks at nothing but links, and at which of them are left. -/
theorem follow_congr {t after : Tree}
    (hlinks : ∀ p target, after.entry? p = some (.link target) ↔ t.entry? p = some (.link target))
    {fresh fresh' : List Path} {here : Path} {names : List Text}
    (hfresh : t.SameLinks fresh fresh') :
    after.follow fresh' here names = t.follow fresh here names := by
  fun_induction follow t fresh here names generalizing fresh' with
  | case1 => rw [follow]
  | case2 fresh here name others hstays ih => rw [follow, if_pos hstays, ih hfresh]
  | case3 fresh here others hup ih => rw [follow, if_neg (by decide), if_pos rfl, ih hfresh]
  | case4 fresh here name others hstays hup target hentry hmem path hpath ihtarget ih =>
      rw [follow, if_neg hstays, if_neg hup, (hlinks _ target).2 hentry]
      simp only
      rw [dif_pos ((hfresh.mem_iff hentry).2 hmem), ihtarget (hfresh.erase _), hpath]
      exact ih hfresh
  | case5 fresh here name others hstays hup target hentry hmem names hnames ihtarget =>
      rw [follow, if_neg hstays, if_neg hup, (hlinks _ target).2 hentry]
      simp only
      rw [dif_pos ((hfresh.mem_iff hentry).2 hmem), ihtarget (hfresh.erase _), hnames]
  | case6 fresh here name others hstays hup target hentry hmem =>
      rw [follow, if_neg hstays, if_neg hup, (hlinks _ target).2 hentry]
      simp only
      rw [dif_neg (mt (hfresh.mem_iff hentry).1 hmem)]
  | case7 fresh here name others hstays hup hentry ih =>
      rw [follow_of_step ⟨by simpa using hstays, hup⟩ fun target hlink =>
        hentry target ((hlinks _ target).1 hlink)]
      exact ih hfresh

/-- The way to the path runs into a circle of links. -/
def Circles (t : Tree) (p : Path) : Prop :=
  ∃ names, t.follow t.links .top p.names = .circle names

theorem resolve_of_linkFree {t : Tree} {p : Path} (h : t.LinkFree p) : t.resolve p = .ok p := by
  have hwhole : t.LinkFree ⟨top.names ++ p.names⟩ := h
  have hfollow := follow_of_linkFree hwhole t.links []
  rw [List.append_nil] at hfollow
  unfold resolve
  rw [hfollow]
  simp [follow, top]

/-- A resolved path has no links, unless its way has run into a circle of them. -/
theorem linkFree_of_resolve {t : Tree} {p q : Path} (hcircle : ¬t.Circles p)
    (h : t.resolve p = .ok q) : t.LinkFree q := by
  unfold resolve at h
  split at h
  · next path hpath =>
    obtain rfl := Except.ok.inj h
    exact linkFree_of_follow t.linkFree_top hpath
  · next names hnames => exact absurd ⟨names, hnames⟩ hcircle

end BundleHook.Tree
