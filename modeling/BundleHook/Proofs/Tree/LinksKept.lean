import BundleHook.Proofs.Tree.Changes
import BundleHook.Proofs.Tree.Resolution

/-!
# Links in a changed tree

No file is written and no directory is made in the place of a link, and none makes a new one. So a
path whose way runs into no circle of links is resolved as before, and looking for a file that has
been written arrives at it.

* `KeepsLinks` — trees with the same links;
* `KeepsLinks.resolve` — paths are resolved as before;
* `look_put` — a file that has been written is found.
-/

namespace BundleHook.Tree

/-- Where a walk arrives at no directory there stands no link either. -/
theorem ne_of_found {t : Tree} {arrival : Arrival} (h : t.Found arrival)
    (hfile : ∀ p, arrival ≠ .directory p) :
    t.entry? arrival.path ≠ some .directory ∧
      ∀ target, t.entry? arrival.path ≠ some (.link target) := by
  cases arrival with
  | directory p => exact absurd rfl (hfile p)
  | file p held => simp [Arrival.path, h.2]
  | free p => simp [Arrival.path, h.2]

/-! ## The same links -/

/-- The same links stand in both trees, and are listed equally often. -/
structure KeepsLinks (t after : Tree) : Prop where
  link_iff : ∀ p target, after.entry? p = some (.link target) ↔ t.entry? p = some (.link target)
  sameLinks : t.SameLinks t.links after.links

variable {t : Tree} {q : Path} {entry : Entry}

private theorem count_links_map (entries : List (Path × Entry))
    (hentry : ∀ target, entry ≠ .link target) {p : Path} (hp : p ≠ q) :
    (links ⟨entries.map fun (r, old) => if r = q then (r, entry) else (r, old)⟩).count p =
      (links ⟨entries⟩).count p := by
  induction entries with
  | nil => rfl
  | cons place entries ih =>
      obtain ⟨r, old⟩ := place
      simp only [links, List.map_cons, List.filterMap_cons] at ih ⊢
      by_cases hr : r = q
      · subst hr
        cases entry with
        | link target => exact absurd rfl (hentry target)
        | file _ | directory => cases old <;> simpa [Ne.symm hp] using ih
      · cases old <;> simpa [hr, List.count_cons] using ih

/-- Elsewhere the links are listed as often when an entry is set that is none. -/
theorem count_links_put (hentry : ∀ target, entry ≠ .link target) {p : Path} (hp : p ≠ q) :
    (t.put q entry).links.count p = t.links.count p := by
  unfold put
  split
  · exact count_links_map t.entries hentry hp
  · cases entry with
    | link target => exact absurd rfl (hentry target)
    | file _ | directory => simp [links]

namespace KeepsLinks

theorem refl (t : Tree) : t.KeepsLinks t := ⟨fun _ _ => Iff.rfl, fun _ _ _ => rfl⟩

theorem trans {between after : Tree} (h : t.KeepsLinks between) (hmore : between.KeepsLinks after) :
    t.KeepsLinks after where
  link_iff p target := (hmore.link_iff p target).trans (h.link_iff p target)
  sameLinks p target hp :=
    (hmore.sameLinks p target ((h.link_iff p target).2 hp)).trans (h.sameLinks p target hp)

theorem put (hq : q ≠ .top) (hold : ∀ target, t.entry? q ≠ some (.link target))
    (hentry : ∀ target, entry ≠ .link target) : t.KeepsLinks (t.put q entry) where
  link_iff p target := by
    rw [entry?_put hq]
    by_cases hp : p = q
    · subst hp
      simp [hold target, hentry target]
    · rw [if_neg hp]
  sameLinks p target hp := by
    refine count_links_put hentry ?_
    rintro rfl
    exact hold target hp

theorem addDirectories (t : Tree) (p : Path) : t.KeepsLinks (t.addDirectories p).2 := by
  refine rel_addDirectories .refl (fun h => h.trans) (fun t q hfree => ?_) t p
  exact .put (ne_top_of_entry?_ne (ne_directory_of_free hfree)) (by simp [hfree]) (by simp)

theorem write {written : Tree} {p : Path} {contents : Contents}
    (h : t.write p contents = .ok written) : t.KeepsLinks written := by
  obtain ⟨arrival, hlook, hfile, htop, rfl⟩ := put_of_write h
  exact .put htop (ne_of_found (found_of_look hlook) hfile).2 (by simp)

variable {after : Tree} (h : t.KeepsLinks after)

include h

/-- A path whose way runs into no circle of links leads where it led before. -/
theorem resolve {p : Path} (hcircle : ¬t.Circles p) : after.resolve p = t.resolve p := by
  have hfollow : after.follow after.links .top p.names = t.follow t.links .top p.names :=
    follow_congr h.link_iff h.sameLinks
  unfold Tree.resolve
  rw [hfollow]
  cases hdestination : t.follow t.links .top p.names with
  | plain path => rfl
  | circle names => exact absurd ⟨names, hdestination⟩ hcircle

end KeepsLinks

/-! ## Files that have been written -/

/-- A walk to a place where a file is put arrives at the file. -/
theorem walk_put {links : Nat} {here : Path} {names : List Text} {arrival : Arrival}
    (h : t.walk links here names = .ok arrival) (hfile : ∀ p, arrival ≠ .directory p)
    (hdirectory : t.entry? arrival.path ≠ some .directory)
    (hlink : ∀ target, t.entry? arrival.path ≠ some (.link target)) (contents : Contents) :
    (t.put arrival.path (.file contents)).walk links here names =
      .ok (.file arrival.path contents) := by
  have hq := ne_top_of_entry?_ne hdirectory
  -- What the walk goes through is a directory or a link, so that it is not where the file is put.
  have hkept {p : Path} {entry : Entry} (hentry : t.entry? p = some entry)
      (hother : t.entry? arrival.path ≠ some entry) :
      Tree.entry? (t.put arrival.path (.file contents)) p = some entry := by
    rw [entry?_put hq, if_neg, hentry]
    rintro rfl
    exact hother hentry
  fun_induction walk t links here names with
  | case1 links here =>
      obtain rfl := Except.ok.inj h
      exact absurd rfl (hfile here)
  | case2 links here name others hstays ih => rw [walk_of_stays hstays, ih h]
  | case3 links here others _ ih => rw [walk_up, ih h]
  | case4 => cases h
  | case5 links here name others hstays hup hlong hentry hend
  | case8 links here name others hstays hup hlong held hentry hend =>
      obtain rfl := Except.ok.inj h
      rw [walk_of_short ⟨by simpa using hstays, hup⟩ (Nat.le_of_not_lt hlong)]
      simp only [Arrival.path] at hq ⊢
      rw [entry?_put hq, if_pos rfl]
      simp only [hend, if_true]
  | case6 => cases h
  | case7 links here name others hstays hup hlong hentry ih =>
      rw [walk_of_directory ⟨by simpa using hstays, hup⟩ (Nat.le_of_not_lt hlong)
        (hkept hentry hdirectory)]
      exact ih h
  | case9 => cases h
  | case10 => cases h
  | case11 here name others hstays hup hlong target hentry links ih =>
      rw [walk_of_short ⟨by simpa using hstays, hup⟩ (Nat.le_of_not_lt hlong),
        hkept hentry (hlink target)]
      exact ih h

theorem look_put {p : Path} {arrival : Arrival} (h : t.look p = .ok arrival)
    (hfile : ∀ q, arrival ≠ .directory q) (contents : Contents) :
    (t.put arrival.path (.file contents)).look p = .ok (.file arrival.path contents) := by
  obtain ⟨hdirectory, hlink⟩ := ne_of_found (found_of_look h) hfile
  have hshort := short_of_look h
  rw [look, if_neg (Nat.not_le.2 hshort)] at h ⊢
  exact walk_put h hfile hdirectory hlink contents

end BundleHook.Tree
