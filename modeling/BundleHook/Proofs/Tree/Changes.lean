import BundleHook.Proofs.Tree.Walks

/-!
# What writing changes

A write sets one entry, at the path where looking for the file arrives. The directories that are
made for it stand at names that were free, so that they neither touch a file nor put a link in the
way.
-/

namespace BundleHook.Tree

/-- The second tree is the first one with some free names taken by directories. -/
def AddsDirectories (t made : Tree) : Prop :=
  ∀ p, made.entry? p = t.entry? p ∨ t.entry? p = none ∧ made.entry? p = some .directory

namespace AddsDirectories

theorem refl (t : Tree) : t.AddsDirectories t := fun _ => .inl rfl

theorem trans {t made more : Tree} (h : t.AddsDirectories made)
    (hmore : made.AddsDirectories more) : t.AddsDirectories more := by
  intro p
  rcases h p with hsame | ⟨hnone, hmade⟩
  · rcases hmore p with hkept | ⟨hfree, htaken⟩
    · exact .inl (hkept.trans hsame)
    · exact .inr ⟨hsame ▸ hfree, htaken⟩
  · rcases hmore p with hkept | ⟨hfree, -⟩
    · exact .inr ⟨hnone, hkept.trans hmade⟩
    · rw [hmade] at hfree
      cases hfree

theorem put {t : Tree} {p : Path} (hfree : t.entry? p = none) :
    t.AddsDirectories (t.put p .directory) := by
  have hp : p ≠ .top := ne_top_of_entry?_ne (ne_directory_of_free hfree)
  intro q
  rw [entry?_put hp]
  by_cases hq : q = p
  · subst hq
    exact .inr ⟨hfree, if_pos rfl⟩
  · exact .inl (if_neg hq)

variable {t made : Tree} (h : t.AddsDirectories made)

include h

theorem fileAt (p : Path) : made.fileAt p = t.fileAt p := by
  unfold Tree.fileAt
  rcases h p with hsame | ⟨hnone, hmade⟩
  · rw [hsame]
  · rw [hnone, hmade]

theorem linkFree {p : Path} (hfree : t.LinkFree p) : made.LinkFree p where
  isStep := hfree.isStep
  noLink names hnames target := by
    rcases h ⟨names⟩ with hsame | ⟨-, hmade⟩
    · rw [hsame]
      exact hfree.noLink names hnames target
    · simp [hmade]

end AddsDirectories

/-! ## Making directories -/

section Making

variable {R : Tree → Tree → Prop} (refl : ∀ t, R t t)
  (trans : ∀ {t between after}, R t between → R between after → R t after)
  (put : ∀ t p, t.entry? p = none → R t (t.put p .directory))

include refl put

theorem rel_addDirectory {t made : Tree} {p : Path} (h : t.addDirectory p = .ok made) :
    R t made := by
  unfold addDirectory at h
  split at h
  · obtain rfl := Except.ok.inj h
    exact refl t
  · next q hlook =>
    obtain rfl := Except.ok.inj h
    exact put t q (found_of_look hlook).2
  · cases h
  · cases h

include trans

/-- What is true of every directory that takes a free name is true of all that are made for a
path. -/
theorem rel_addDirectories (t : Tree) (p : Path) : R t (t.addDirectories p).2 := by
  fun_induction addDirectories t p with
  | case1 _ _ hmade => exact rel_addDirectory refl put hmade
  | case2 p refusal _ _ above made hmade ih => rwa [hmade] at ih
  | case3 p refusal _ _ above habove made hmade ih =>
      rw [habove] at ih
      exact trans ih (rel_addDirectory refl put hmade)
  | case4 p refusal _ _ above habove _ _ ih => rwa [habove] at ih
  | case5 => exact refl t

end Making

theorem addsDirectories_addDirectories (t : Tree) (p : Path) :
    t.AddsDirectories (t.addDirectories p).2 :=
  rel_addDirectories .refl (fun h => h.trans) (fun _ _ => .put) t p

/-- A directory that is there already need not be made. -/
theorem addDirectories_of_look {t : Tree} {p there : Path}
    (h : t.look p = .ok (.directory there)) : t.addDirectories p = (none, t) := by
  have hadd : t.addDirectory p = .ok t := by
    unfold addDirectory
    rw [h]
  unfold addDirectories
  rw [hadd]

/-- A write that succeeds sets the file where looking for the path arrives: at another file or at a
free name. -/
theorem put_of_write {t written : Tree} {p : Path} {contents : Contents}
    (h : t.write p contents = .ok written) :
    ∃ arrival, t.look p = .ok arrival ∧ (∀ q, arrival ≠ .directory q) ∧ arrival.path ≠ .top ∧
      written = t.put arrival.path (.file contents) := by
  unfold write at h
  split at h
  · next q held hlook =>
    have hentry := (found_of_look hlook).2
    exact ⟨_, hlook, by simp, ne_top_of_entry?_ne (ne_directory_of_file hentry),
      (Except.ok.inj h).symm⟩
  · next q hlook =>
    have hentry := (found_of_look hlook).2
    exact ⟨_, hlook, by simp, ne_top_of_entry?_ne (ne_directory_of_free hentry),
      (Except.ok.inj h).symm⟩
  · cases h
  · cases h

end BundleHook.Tree
