import BundleHook.Proofs.Text.Parts
import BundleHook.Proofs.Tree.Files
import BundleHook.Tree.Links

/-!
# Walks and the paths they arrive at

A walk goes on only through directories, so that it arrives at a solid path: one whose names are
proper names and all of which stand for directories. A path that no link stands in is its own
arrival. `look_parent` says that whatever is reached lies in a directory that is reached.
-/

namespace BundleHook

/-- A name that leads one step down: neither nothing, nor a dot, nor the way back up. -/
def Path.IsStep (name : Text) : Prop := Path.staysPut name = false ∧ name ≠ Path.upName

instance (name : Text) : Decidable (Path.IsStep name) := inferInstanceAs (Decidable (_ ∧ _))

/-- Where an arrival is, whatever stands there. -/
def Arrival.path : Arrival → Path
  | directory p => p
  | file p _ => p
  | free p => p

namespace Tree

/-- All names of the path are short steps, and it leads through directories to a directory. -/
structure Solid (t : Tree) (p : Path) : Prop where
  isStep : ∀ name ∈ p.names, Path.IsStep name
  isShort : ∀ name ∈ p.names, octetCount name ≤ nameLimit
  isDirectory : ∀ names, names <+: p.names → t.entry? ⟨names⟩ = some .directory

/-- All names of the path are steps, and no link stands in it. -/
structure LinkFree (t : Tree) (p : Path) : Prop where
  isStep : ∀ name ∈ p.names, Path.IsStep name
  noLink : ∀ names, names <+: p.names → ∀ target, t.entry? ⟨names⟩ ≠ some (.link target)

/-- What a walk may say about the place it arrives at. -/
def Found (t : Tree) : Arrival → Prop
  | .directory p => t.Solid p
  | .file p contents => t.Solid p.parent ∧ t.entry? p = some (.file contents)
  | .free p => t.Solid p.parent ∧ t.entry? p = none

section Prefixes

private theorem prefix_concat_cases {names before : List Text} {name : Text}
    (h : names <+: before ++ [name]) : names = before ++ [name] ∨ names <+: before := by
  rcases List.prefix_concat_iff.1 h with h | h
  · exact .inl h
  · exact .inr h

variable {t : Tree} {p : Path} {name : Text}

theorem solid_top (t : Tree) : t.Solid .top where
  isStep := List.forall_mem_nil _
  isShort := List.forall_mem_nil _
  isDirectory names h := by
    rw [List.prefix_nil.1 h]
    exact t.entry?_top

theorem Solid.child (h : t.Solid p) (hstep : Path.IsStep name)
    (hshort : octetCount name ≤ nameLimit) (hentry : t.entry? (p.child name) = some .directory) :
    t.Solid (p.child name) where
  isStep n hn := by
    rcases List.mem_append.1 hn with hn | hn
    · exact h.isStep n hn
    · rwa [List.mem_singleton.1 hn]
  isShort n hn := by
    rcases List.mem_append.1 hn with hn | hn
    · exact h.isShort n hn
    · rwa [List.mem_singleton.1 hn]
  isDirectory names hnames := by
    rcases prefix_concat_cases hnames with rfl | hbefore
    · exact hentry
    · exact h.isDirectory names hbefore

theorem Solid.of_prefix (h : t.Solid p) {names : List Text} (hnames : names <+: p.names) :
    t.Solid ⟨names⟩ where
  isStep n hn := h.isStep n (hnames.subset hn)
  isShort n hn := h.isShort n (hnames.subset hn)
  isDirectory before hbefore := h.isDirectory before (hbefore.trans hnames)

theorem Solid.parent (h : t.Solid p) : t.Solid p.parent :=
  h.of_prefix (List.dropLast_prefix p.names)

theorem Solid.entry? (h : t.Solid p) : t.entry? p = some .directory :=
  h.isDirectory p.names (List.prefix_refl _)

theorem Solid.linkFree (h : t.Solid p) : t.LinkFree p where
  isStep := h.isStep
  noLink names hnames target := by simp [h.isDirectory names hnames]

theorem linkFree_top (t : Tree) : t.LinkFree .top := t.solid_top.linkFree

theorem LinkFree.child (h : t.LinkFree p) (hstep : Path.IsStep name)
    (hentry : ∀ target, t.entry? (p.child name) ≠ some (.link target)) :
    t.LinkFree (p.child name) where
  isStep n hn := by
    rcases List.mem_append.1 hn with hn | hn
    · exact h.isStep n hn
    · rwa [List.mem_singleton.1 hn]
  noLink names hnames := by
    rcases prefix_concat_cases hnames with rfl | hbefore
    · exact hentry
    · exact h.noLink names hbefore

theorem LinkFree.of_prefix (h : t.LinkFree p) {names : List Text} (hnames : names <+: p.names) :
    t.LinkFree ⟨names⟩ where
  isStep n hn := h.isStep n (hnames.subset hn)
  noLink before hbefore := h.noLink before (hbefore.trans hnames)

theorem LinkFree.parent (h : t.LinkFree p) : t.LinkFree p.parent :=
  h.of_prefix (List.dropLast_prefix p.names)

end Prefixes

theorem solid_startOf {t : Tree} {here : Path} (hhere : t.Solid here) (target : Text) :
    t.Solid (Path.startOf here target) := by
  unfold Path.startOf
  split
  · exact t.solid_top
  · exact hhere

/-- A walk from a solid path tells the truth about where it arrives. -/
theorem found_of_walk {t : Tree} {links : Nat} {here : Path} {names : List Text} {arrival : Arrival}
    (hhere : t.Solid here) (h : t.walk links here names = .ok arrival) : t.Found arrival := by
  fun_induction walk t links here names with
  | case1 =>
      obtain rfl := Except.ok.inj h
      exact hhere
  | case2 _ _ _ _ _ ih => exact ih hhere h
  | case3 _ _ _ _ ih => exact ih hhere.parent h
  | case4 => cases h
  | case5 links here name others _ _ _ hentry _ =>
      obtain rfl := Except.ok.inj h
      exact ⟨by simpa using hhere, hentry⟩
  | case6 => cases h
  | case7 links here name others hstays hup hlong hentry ih =>
      exact ih (hhere.child ⟨by simpa using hstays, hup⟩ (Nat.le_of_not_lt hlong) hentry) h
  | case8 links here name others _ _ _ contents hentry _ =>
      obtain rfl := Except.ok.inj h
      exact ⟨by simpa using hhere, hentry⟩
  | case9 => cases h
  | case10 => cases h
  | case11 here _ _ _ _ _ target _ _ ih => exact ih (solid_startOf hhere target) h

theorem found_of_look {t : Tree} {p : Path} {arrival : Arrival} (h : t.look p = .ok arrival) :
    t.Found arrival := by
  unfold look at h
  split at h
  · cases h
  · exact found_of_walk t.solid_top h

/-! ## Walks that go on -/

section Steps

variable {t : Tree} {here : Path} {name : Text}

theorem walk_of_stays (h : Path.staysPut name = true) (links : Nat) (others : List Text) :
    t.walk links here (name :: others) = t.walk links here others := by
  rw [walk, if_pos h]

theorem walk_up (links : Nat) (others : List Text) :
    t.walk links here (Path.upName :: others) = t.walk links here.parent others := by
  rw [walk, if_neg (by decide), if_pos rfl]

theorem walk_of_long (hstep : Path.IsStep name) (hlong : nameLimit < octetCount name) (links : Nat)
    (others : List Text) : t.walk links here (name :: others) = .error .longName := by
  rw [walk, if_neg (by simp [hstep.1]), if_neg hstep.2, if_pos hlong]

variable (hstep : Path.IsStep name) (hshort : octetCount name ≤ nameLimit)

include hstep hshort

theorem walk_of_short (links : Nat) (others : List Text) :
    t.walk links here (name :: others) =
      match t.entry? (here.child name) with
      | none => if others.isEmpty then .ok (.free (here.child name)) else .error .missing
      | some .directory => t.walk links (here.child name) others
      | some (.file contents) =>
        if others.isEmpty then .ok (.file (here.child name) contents) else .error .notDirectory
      | some (.link target) =>
        match links with
        | 0 => .error .manyLinks
        | links + 1 =>
          t.walk links (Path.startOf here target) (Text.splitOn '/' target ++ others) := by
  rewrite [walk, if_neg (by simp [hstep.1]), if_neg hstep.2, if_neg (Nat.not_lt.2 hshort)]
  rcases t.entry? (here.child name) with _ | (_ | _ | target)
  · rfl
  · rfl
  · rfl
  · rcases links with _ | links <;> rfl

theorem walk_of_directory (hentry : t.entry? (here.child name) = some .directory) (links : Nat)
    (others : List Text) :
    t.walk links here (name :: others) = t.walk links (here.child name) others := by
  rw [walk_of_short hstep hshort, hentry]

end Steps

/-- A walk to a directory can be gone on from there. -/
theorem walk_append {t : Tree} {links : Nat} {here there : Path} {names : List Text}
    (h : t.walk links here names = .ok (.directory there)) :
    ∃ left, left ≤ links ∧
      ∀ others, t.walk links here (names ++ others) = t.walk left there others := by
  fun_induction walk t links here names with
  | case1 links here =>
      obtain rfl := Arrival.directory.inj (Except.ok.inj h)
      exact ⟨links, Nat.le_refl _, fun others => rfl⟩
  | case2 links here name rest hstays ih =>
      obtain ⟨left, hleft, hgo⟩ := ih h
      refine ⟨left, hleft, fun others => ?_⟩
      rw [List.cons_append, walk_of_stays hstays, hgo]
  | case3 links here rest _ ih =>
      obtain ⟨left, hleft, hgo⟩ := ih h
      refine ⟨left, hleft, fun others => ?_⟩
      rw [List.cons_append, walk_up, hgo]
  | case4 => cases h
  | case5 => cases h
  | case6 => cases h
  | case7 links here name rest hstays hup hlong hentry ih =>
      obtain ⟨left, hleft, hgo⟩ := ih h
      refine ⟨left, hleft, fun others => ?_⟩
      rw [List.cons_append, walk_of_directory ⟨by simpa using hstays, hup⟩
        (Nat.le_of_not_lt hlong) hentry, hgo]
  | case8 => cases h
  | case9 => cases h
  | case10 => cases h
  | case11 here name rest hstays hup hlong target hentry links ih =>
      obtain ⟨left, hleft, hgo⟩ := ih h
      refine ⟨left, Nat.le_succ_of_le hleft, fun others => ?_⟩
      rw [List.cons_append, walk_of_short ⟨by simpa using hstays, hup⟩ (Nat.le_of_not_lt hlong),
        hentry]
      simp only
      rw [← List.append_assoc, hgo]

/-- What a walk arrives at lies in a directory that the walk has come through. -/
theorem walk_directory_of_append {t : Tree} {links : Nat} {here : Path} {names others : List Text}
    {arrival : Arrival} (hothers : others ≠ [])
    (h : t.walk links here (names ++ others) = .ok arrival) :
    ∃ there, t.walk links here names = .ok (.directory there) := by
  have hmore (rest : List Text) : (rest ++ others).isEmpty = false := by
    cases rest <;> simp [hothers]
  -- Where the walk along `names` ends at anything but a directory, the longer one cannot go on.
  fun_induction walk t links here names with
  | case1 links here => exact ⟨here, rfl⟩
  | case2 links here name rest hstays ih =>
      rw [List.cons_append, walk_of_stays hstays] at h
      exact ih h
  | case3 links here rest _ ih =>
      rw [List.cons_append, walk_up] at h
      exact ih h
  | case4 links here name rest hstays hup hlong =>
      rw [List.cons_append, walk_of_long ⟨by simpa using hstays, hup⟩ hlong] at h
      cases h
  | case5 links here name rest hstays hup hlong hentry
  | case6 links here name rest hstays hup hlong hentry =>
      rw [List.cons_append, walk_of_short ⟨by simpa using hstays, hup⟩ (Nat.le_of_not_lt hlong),
        hentry] at h
      simp [hmore] at h
  | case7 links here name rest hstays hup hlong hentry ih =>
      rw [List.cons_append, walk_of_directory ⟨by simpa using hstays, hup⟩
        (Nat.le_of_not_lt hlong) hentry] at h
      exact ih h
  | case8 links here name rest hstays hup hlong contents hentry
  | case9 links here name rest hstays hup hlong contents hentry =>
      rw [List.cons_append, walk_of_short ⟨by simpa using hstays, hup⟩ (Nat.le_of_not_lt hlong),
        hentry] at h
      simp [hmore] at h
  | case10 here name rest hstays hup hlong target hentry =>
      rw [List.cons_append, walk_of_short ⟨by simpa using hstays, hup⟩ (Nat.le_of_not_lt hlong),
        hentry] at h
      cases h
  | case11 here name rest hstays hup hlong target hentry links ih =>
      rw [List.cons_append, walk_of_short ⟨by simpa using hstays, hup⟩ (Nat.le_of_not_lt hlong),
        hentry] at h
      simp only [← List.append_assoc] at h
      exact ih h

/-! ## Paths without links -/

private theorem names_append_cons (here : Path) (name : Text) (others : List Text) :
    here.names ++ name :: others = (here.child name).names ++ others := by
  simp [Path.child]

/-- A walk goes straight through a solid path. -/
theorem walk_of_solid {t : Tree} {here : Path} {names : List Text}
    (h : t.Solid ⟨here.names ++ names⟩) (links : Nat) (others : List Text) :
    t.walk links here (names ++ others) = t.walk links ⟨here.names ++ names⟩ others := by
  induction names generalizing here with
  | nil => simp
  | cons name names ih =>
      rw [names_append_cons] at h
      have hentry : t.entry? (here.child name) = some .directory :=
        h.isDirectory _ (List.prefix_append _ names)
      rw [names_append_cons, List.cons_append,
        walk_of_directory (h.isStep name (by simp [Path.child]))
          (h.isShort name (by simp [Path.child])) hentry, ih h]

/-- A walk along a path without links stays on the path. -/
theorem path_of_walk {t : Tree} {links : Nat} {here : Path} {names : List Text} {arrival : Arrival}
    (hfree : t.LinkFree ⟨here.names ++ names⟩) (h : t.walk links here names = .ok arrival) :
    arrival.path = ⟨here.names ++ names⟩ := by
  induction names generalizing here with
  | nil =>
      rw [walk] at h
      obtain rfl := Except.ok.inj h
      simp [Arrival.path]
  | cons name names ih =>
      have hstep : Path.IsStep name := hfree.isStep name (by simp)
      rw [names_append_cons] at hfree ⊢
      by_cases hlong : nameLimit < octetCount name
      · rw [walk_of_long hstep hlong] at h
        cases h
      rw [walk_of_short hstep (Nat.le_of_not_lt hlong)] at h
      split at h
      · split at h
        · next hend =>
          obtain rfl := Except.ok.inj h
          simp [Arrival.path, List.isEmpty_iff.1 hend]
        · cases h
      · exact ih hfree h
      · split at h
        · next hend =>
          obtain rfl := Except.ok.inj h
          simp [Arrival.path, List.isEmpty_iff.1 hend]
        · cases h
      · next target hentry =>
        exact absurd hentry (hfree.noLink _ (List.prefix_append _ names) target)

theorem path_of_look {t : Tree} {p : Path} {arrival : Arrival} (hfree : t.LinkFree p)
    (h : t.look p = .ok arrival) : arrival.path = p := by
  unfold look at h
  split at h
  · cases h
  · have hwhole : t.LinkFree ⟨Path.top.names ++ p.names⟩ := hfree
    exact path_of_walk hwhole h

/-- A walk along a path without links finds no name too long unless one is. -/
theorem walk_ne_longName {t : Tree} {links : Nat} {here : Path} {names : List Text}
    (hfree : t.LinkFree ⟨here.names ++ names⟩)
    (hshort : ∀ name ∈ names, octetCount name ≤ nameLimit) :
    t.walk links here names ≠ .error .longName := by
  induction names generalizing here with
  | nil =>
      simp [walk]
  | cons name names ih =>
      have hstep : Path.IsStep name := hfree.isStep name (by simp)
      rw [names_append_cons] at hfree
      rw [walk_of_short hstep (hshort name List.mem_cons_self)]
      split
      · split <;> simp
      · exact ih hfree fun n hn => hshort n (List.mem_cons_of_mem name hn)
      · split <;> simp
      · next target hentry =>
        exact absurd hentry (hfree.noLink _ (List.prefix_append _ names) target)

theorem short_of_look {t : Tree} {p : Path} {arrival : Arrival} (h : t.look p = .ok arrival) :
    octetCount p.text < pathLimit := by
  unfold look at h
  split at h
  · cases h
  · next hshort => exact Nat.lt_of_not_le hshort

theorem look_of_solid {t : Tree} {p : Path} (h : t.Solid p)
    (hshort : octetCount p.text < pathLimit) : t.look p = .ok (.directory p) := by
  have hwhole : t.Solid ⟨Path.top.names ++ p.names⟩ := h
  have hwalk := walk_of_solid hwhole linkLimit []
  rw [List.append_nil] at hwalk
  rw [look, if_neg (Nat.not_le.2 hshort), hwalk, walk]
  rfl

/-- Below a solid path the last name decides. -/
theorem look_child {t : Tree} {p : Path} {name : Text} (h : t.Solid p)
    (hshort : octetCount (p.child name).text < pathLimit) :
    t.look (p.child name) = t.walk linkLimit p [name] := by
  have hwhole : t.Solid ⟨Path.top.names ++ p.names⟩ := h
  rw [look, if_neg (Nat.not_le.2 hshort)]
  exact walk_of_solid hwhole linkLimit [name]

/-! ## The directory above -/

theorem isPrefix_join_append (glue : Text) (parts others : List Text) :
    Text.join glue parts <+: Text.join glue (parts ++ others) := by
  induction parts with
  | nil => exact List.nil_prefix
  | cons part parts ih =>
      cases parts with
      | nil =>
          cases others with
          | nil => exact List.prefix_refl _
          | cons other others =>
              simp only [List.cons_append, List.nil_append, Text.join, List.append_assoc]
              exact List.prefix_append _ _
      | cons next parts =>
          simp only [List.cons_append, Text.join] at ih ⊢
          exact List.prefix_append_right_inj _ |>.2 ih

theorem octetCount_le_of_prefix {s t : Text} (h : s <+: t) : octetCount s ≤ octetCount t := by
  obtain ⟨rest, rfl⟩ := h
  simp [octetCount, Utf8.encode]

theorem octetCount_text_le {p : Path} {names : List Text} (h : names <+: p.names) :
    octetCount (Path.text ⟨names⟩) ≤ octetCount p.text := by
  obtain ⟨rest, hrest⟩ := h
  refine octetCount_le_of_prefix ?_
  unfold Path.text
  rw [← hrest]
  exact (List.prefix_append_right_inj ['/']).2 (isPrefix_join_append ['/'] names rest)

/-- Of two ways on from a path, the one that takes less to spell makes the shorter path. -/
theorem octetCount_text_le_of_join {p : Path} {names others : List Text} (hnames : names ≠ [])
    (hothers : others ≠ [])
    (h : octetCount (Text.join ['/'] names) ≤ octetCount (Text.join ['/'] others)) :
    octetCount (Path.text ⟨p.names ++ names⟩) ≤ octetCount (Path.text ⟨p.names ++ others⟩) := by
  have hlong (front : Text) : octetCount (front ++ Text.join ['/'] names) ≤
      octetCount (front ++ Text.join ['/'] others) := by
    simp only [octetCount, Utf8.encode, List.flatMap_append, List.length_append] at h ⊢
    omega
  unfold Path.text
  by_cases hnil : p.names = []
  · rw [hnil]
    exact hlong ['/']
  · rw [Text.join_append hnil hnames, Text.join_append hnil hothers]
    exact hlong ('/' :: (Text.join ['/'] p.names ++ ['/']))

/-- The directory above whatever is found can be looked up as well. -/
theorem look_parent {t : Tree} {p : Path} {arrival : Arrival} (h : t.look p = .ok arrival) :
    ∃ there, t.look p.parent = .ok (.directory there) := by
  unfold look at h ⊢
  split at h
  · cases h
  · next hshort =>
    have hparent := octetCount_text_le (List.dropLast_prefix p.names)
    rw [if_neg (by unfold Path.parent; omega)]
    by_cases hnil : p.names = []
    · exact ⟨.top, by simp [Path.parent, hnil, walk]⟩
    · rw [← List.dropLast_concat_getLast hnil] at h
      exact walk_directory_of_append (List.cons_ne_nil _ []) h

end Tree

end BundleHook
