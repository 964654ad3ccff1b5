import BundleHook.Proofs.Tree.Extension

/-!
# The way to a file

A file can be written below a root just when no file stands on the way to it. Otherwise it is refused,
and not even a directory is made for it.

* `Blocked` — a file stands on the way;
* `addDirectories_of_blocked`, `addDirectories_of_not_blocked` — the directories on the way.
-/

namespace BundleHook

open Glob (pathAt)

namespace Tree

/-- A file stands on the way to the names, before the last one of them. -/
def Blocked (t : Tree) (root : Path) (names : List Text) : Prop :=
  ∃ before more contents, names = before ++ more ∧ more ≠ [] ∧
    t.entry? (pathAt root before) = some (.file contents)

theorem blocked_append_singleton {t : Tree} {root : Path} {names : List Text} {name : Text} :
    t.Blocked root (names ++ [name]) ↔
      t.Blocked root names ∨ ∃ contents, t.entry? (pathAt root names) = some (.file contents) := by
  constructor
  · rintro ⟨before, more, contents, hsplit, hmore, hentry⟩
    obtain ⟨rest, last, rfl⟩ : ∃ rest last, more = rest ++ [last] :=
      ⟨_, _, (List.dropLast_concat_getLast hmore).symm⟩
    rw [← List.append_assoc] at hsplit
    obtain ⟨rfl, -⟩ := List.append_inj' hsplit rfl
    by_cases hrest : rest = []
    · subst hrest
      rw [List.append_nil]
      exact .inr ⟨contents, hentry⟩
    · exact .inl ⟨before, rest, contents, rfl, hrest, hentry⟩
  · rintro (⟨before, more, contents, rfl, -, hentry⟩ | ⟨contents, hentry⟩)
    · exact ⟨before, more ++ [name], contents, by rw [List.append_assoc], by simp, hentry⟩
    · exact ⟨names, [name], contents, rfl, by simp, hentry⟩

namespace Linkless

variable {t : Tree} {root : Path} (h : t.Linkless root)

include h

/-! ## Looking -/

section Looking

variable {before more : List Text} {name : Text} (hmore : more ≠ [])
  (hshort : octetCount (pathAt root (before ++ name :: more)).text < pathLimit)

include hmore hshort

/-- Looking for what is behind a file is refused. -/
theorem look_behind_file {contents : Contents}
    (hentry : t.entry? (pathAt root (before ++ [name])) = some (.file contents)) :
    t.look (pathAt root (before ++ name :: more)) = .error .notDirectory := by
  have hname := h.names _ _ hentry name (by simp)
  have hsolid : t.Solid ⟨Path.top.names ++ (pathAt root before).names⟩ :=
    h.solid (h.parent before name _ hentry)
  rw [← child_pathAt] at hentry
  rw [look, if_neg (Nat.not_le.2 hshort), pathAt_append, walk_of_solid hsolid,
    walk_of_short hname.isStep hname.isShort]
  have hchild : Path.child ⟨Path.top.names ++ (pathAt root before).names⟩ name =
      (pathAt root before).child name := rfl
  rw [hchild, hentry]
  simp [hmore]

/-- Looking for what is below a directory that is not there is refused too. -/
theorem look_missing (hname : Path.IsProper name)
    (habove : t.entry? (pathAt root before) = some .directory)
    (hentry : t.entry? (pathAt root (before ++ [name])) = none) :
    t.look (pathAt root (before ++ name :: more)) = .error .missing := by
  have hsolid : t.Solid ⟨Path.top.names ++ (pathAt root before).names⟩ := h.solid habove
  rw [← child_pathAt] at hentry
  rw [look, if_neg (Nat.not_le.2 hshort), pathAt_append, walk_of_solid hsolid,
    walk_of_short hname.isStep hname.isShort]
  have hchild : Path.child ⟨Path.top.names ++ (pathAt root before).names⟩ name =
      (pathAt root before).child name := rfl
  rw [hchild, hentry]
  simp [hmore]

end Looking

/-- The way to what is not there comes to an end. -/
theorem exists_end {names : List Text} (hnone : t.entry? (pathAt root names) = none) :
    ∃ before name more entry, names = before ++ name :: more ∧
      t.entry? (pathAt root before) = some entry ∧
      t.entry? (pathAt root (before ++ [name])) = none := by
  induction names using List.reverseRecOn with
  | nil =>
      rw [pathAt_nil, h.solid_root.entry?] at hnone
      cases hnone
  | append_singleton names name ih =>
      rcases hentry : t.entry? (pathAt root names) with _ | entry
      · obtain ⟨before, first, more, entry, rfl, hbefore, hfirst⟩ := ih hentry
        exact ⟨before, first, more ++ [name], entry, by simp, hbefore, hfirst⟩
      · exact ⟨names, name, [], entry, rfl, hentry, hnone⟩

/-- Below what is not there a directory is missed, if no file stands on the way. -/
theorem look_below_missing {above : List Text} {name : Text}
    (hshort : octetCount (pathAt root (above ++ [name])).text < pathLimit)
    (hnames : ∀ n ∈ above, Path.IsProper n) (hway : ¬t.Blocked root above)
    (hnone : t.entry? (pathAt root above) = none) :
    t.look (pathAt root (above ++ [name])) = .error .missing := by
  obtain ⟨before, first, more, entry, rfl, hbefore, hfirst⟩ := h.exists_end hnone
  have hdirectory : t.entry? (pathAt root before) = some .directory := by
    rcases entry with contents | _ | target
    · exact absurd ⟨before, first :: more, contents, rfl, by simp, hbefore⟩ hway
    · exact hbefore
    · exact absurd hbefore (h.noLink _ target)
  rw [List.append_assoc, List.cons_append] at hshort ⊢
  exact h.look_missing (by simp) hshort (hnames first (by simp)) hdirectory hfirst

/-! ## Directories -/

/-- A directory is made where nothing stands, in a directory. -/
theorem addDirectory_below {above : List Text} {name : Text} (hname : Path.IsProper name)
    (hshort : octetCount (pathAt root (above ++ [name])).text < pathLimit)
    (habove : t.entry? (pathAt root above) = some .directory)
    (hnone : t.entry? (pathAt root (above ++ [name])) = none) :
    ∃ made, t.addDirectory (pathAt root (above ++ [name])) = .ok made := by
  rw [Tree.addDirectory, h.look_below hname.isStep hname.isShort hshort habove, hnone]
  exact ⟨_, rfl⟩

section Directories

variable {names : List Text} (hshort : octetCount (pathAt root names).text < pathLimit)

include hshort

/-- Where a file stands on the way, or at its end, no directory is made. -/
theorem addDirectories_of_file (hfile : t.Blocked root names ∨
      ∃ contents, t.entry? (pathAt root names) = some (.file contents)) :
    ∃ refusal, t.addDirectories (pathAt root names) = (some refusal, t) := by
  have hrefused {obstacle : Obstacle} (hne : obstacle ≠ .missing)
      (hmade : t.addDirectory (pathAt root names) = .error ⟨obstacle, pathAt root names⟩) :
      ∃ refusal, t.addDirectories (pathAt root names) = (some refusal, t) := by
    rw [Tree.addDirectories, hmade]
    exact ⟨_, dif_neg fun hmissing => hne hmissing.1⟩
  rcases hfile with ⟨before, more, contents, rfl, hmore, hentry⟩ | ⟨contents, hentry⟩
  · have hbefore : before ≠ [] := by
      rintro rfl
      rw [pathAt_nil, h.solid_root.entry?] at hentry
      cases hentry
    obtain ⟨above, name, rfl⟩ : ∃ above name, before = above ++ [name] :=
      ⟨_, _, (List.dropLast_concat_getLast hbefore).symm⟩
    rw [List.append_assoc, List.singleton_append] at hshort hrefused ⊢
    refine @hrefused .notDirectory (by decide) ?_
    rw [Tree.addDirectory, h.look_behind_file hmore hshort hentry]
  · refine @hrefused .taken (by decide) ?_
    rw [Tree.addDirectory, h.look_of_entry hentry hshort]
    rfl

variable (hnames : ∀ name ∈ names, Path.IsProper name)

include hnames

/-- Otherwise all of them are. -/
theorem addDirectories_of_free (hfree : ¬t.Blocked root names)
    (hfile : ∀ contents, t.entry? (pathAt root names) ≠ some (.file contents)) :
    (t.addDirectories (pathAt root names)).1 = none := by
  induction names using List.reverseRecOn with
  | nil => rw [pathAt_nil, addDirectories_of_look h.lookRoot]
  | append_singleton above name ih =>
      rw [blocked_append_singleton, not_or, not_exists] at hfree
      obtain ⟨hway, habove⟩ := hfree
      have hproper (n : Text) (hn : n ∈ above) : Path.IsProper n :=
        hnames n (List.mem_append_left _ hn)
      have hname := hnames name (by simp)
      rcases hentry : t.entry? (pathAt root (above ++ [name])) with _ | (contents | _ | target)
      · rcases hup : t.entry? (pathAt root above) with _ | (contents | _ | target)
        · -- All directories above are made first.
          have hlook := h.look_below_missing hshort hproper hway hup
          have hshort' : octetCount (pathAt root above).text < pathLimit :=
            Nat.lt_of_le_of_lt (octetCount_text_le (by simp [pathAt])) hshort
          have hmade := ih hshort' hproper hway (by simp [hup])
          rcases hup' : t.addDirectories (pathAt root above) with ⟨refusal, made⟩
          obtain rfl : refusal = none := by rwa [hup'] at hmade
          obtain ⟨hlinkless, hextends, hthere⟩ := h.addDirectories hproper hup'
          have hnone : made.entry? (pathAt root (above ++ [name])) = none := by
            rw [hextends.entry?_off_way, hentry]
            intro hle
            have hlength := hle.length_le
            rw [List.length_append, List.length_singleton] at hlength
            omega
          obtain ⟨made', hmade'⟩ := hlinkless.addDirectory_below hname hshort (hthere rfl) hnone
          have hmissing : t.addDirectory (pathAt root (above ++ [name])) =
              .error ⟨.missing, pathAt root (above ++ [name])⟩ := by
            rw [Tree.addDirectory, hlook]
          have hne : (pathAt root (above ++ [name])).names ≠ [] := by simp [pathAt]
          rw [Tree.addDirectories, hmissing]
          simp only [hne, parent_pathAt, hup', hmade', ne_eq, not_false_eq_true, and_self, dite_true]
        · exact absurd hup (habove contents)
        · obtain ⟨made, hmade⟩ := h.addDirectory_below hname hshort hup hentry
          rw [Tree.addDirectories, hmade]
        · exact absurd hup (h.noLink _ target)
      · exact absurd hentry (hfile contents)
      · rw [addDirectories_of_look (h.look_directory hentry hshort)]
      · exact absurd hentry (h.noLink _ target)

end Directories

end Linkless

end Tree

end BundleHook
