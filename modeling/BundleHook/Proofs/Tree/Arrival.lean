import BundleHook.Proofs.Entries
import BundleHook.Proofs.Tree.Linkless
import Mathlib.Data.Nat.Find

/-!
# Where looking arrives

Looking for a path goes through the links that it meets and counts them. Resolving a path follows
each link to its end before it goes on, and counts none, but follows no link that it is following
already. Where looking arrives, resolving arrives as well: a link that is being followed is not met
again, as a walk through it would have no end then.

* `follow_of_walk` — following links leads where a walk leads;
* `resolve_of_arrival` — a path that leads somewhere is resolved to the path there;
* `IsNamed` — a tree with the names of a file system, where a file is found at its own path.
-/

namespace BundleHook

theorem Path.name_mem_names {p : Path} (h : p.names ≠ []) : p.name ∈ p.names := by
  rw [name, List.getLast?_eq_some_getLast h]
  exact List.getLast_mem h

namespace Tree

open Path
open Glob (pathAt)

/-- A walk that may meet more links arrives at the same place. -/
theorem walk_mono {t : Tree} {links more : Nat} {here : Path} {names : List Text}
    {arrival : Arrival} (h : t.walk links here names = .ok arrival) (hmore : links ≤ more) :
    t.walk more here names = .ok arrival := by
  fun_induction walk t links here names generalizing more with
  | case1 =>
      rw [walk]
      exact h
  | case2 links here name others hstays ih =>
      rw [walk_of_stays hstays]
      exact ih h hmore
  | case3 links here others _ ih =>
      rw [walk_up]
      exact ih h hmore
  | case4 => cases h
  | case5 links here name others hstays hup hlong hentry hend
  | case8 links here name others hstays hup hlong contents hentry hend =>
      rw [walk_of_short ⟨by simpa using hstays, hup⟩ (Nat.le_of_not_lt hlong), hentry]
      simp only [hend, if_true]
      exact h
  | case6 => cases h
  | case7 links here name others hstays hup hlong hentry ih =>
      rw [walk_of_directory ⟨by simpa using hstays, hup⟩ (Nat.le_of_not_lt hlong) hentry]
      exact ih h hmore
  | case9 => cases h
  | case10 => cases h
  | case11 here name others hstays hup hlong target hentry links ih =>
      obtain ⟨more, rfl⟩ := Nat.exists_eq_add_of_lt hmore
      rw [walk_of_short ⟨by simpa using hstays, hup⟩ (Nat.le_of_not_lt hlong), hentry]
      exact ih h (Nat.le_add_right _ _)

/-- No walk gets past a link that is being followed without meeting more links. -/
def Barred (t : Tree) (fresh : List Path) (links : Nat) : Prop :=
  ∀ here name target, IsStep name → t.entry? (here.child name) = some (.link target) →
    here.child name ∉ fresh → ∀ arrival, t.walk links here [name] ≠ .ok arrival

theorem Barred.mono {t : Tree} {fresh : List Path} {fewer links : Nat} (h : t.Barred fresh links)
    (hfewer : fewer ≤ links) : t.Barred fresh fewer :=
  fun here name target hstep hentry hfollowed arrival hwalk =>
    h here name target hstep hentry hfollowed arrival (walk_mono hwalk hfewer)

section Links

variable {t : Tree} {fresh : List Path} {here : Path} {name target : Text} {links : Nat}

/-- A link that leads to its end by so many links and no fewer is not got past by so many. -/
theorem Barred.erase (h : t.Barred fresh links)
    (hentry : t.entry? (here.child name) = some (.link target))
    (hleast : ∀ fewer < links, ∀ arrival,
      t.walk fewer (startOf here target) (Text.splitOn '/' target) ≠ .ok arrival) :
    t.Barred (fresh.erase (here.child name)) links := by
  intro other last text hstep hother hfollowed arrival hwalk
  by_cases hsame : other.child last = here.child name
  · obtain ⟨hhere, hname⟩ := List.append_inj' (congrArg Path.names hsame) rfl
    obtain rfl : other = here := congrArg Path.mk hhere
    obtain rfl := List.singleton_inj.1 hname
    by_cases hlong : nameLimit < octetCount last
    · rw [walk_of_long hstep hlong] at hwalk
      cases hwalk
    rw [walk_of_short hstep (Nat.le_of_not_lt hlong), hentry] at hwalk
    rcases links with _ | links
    · cases hwalk
    · simp only [List.append_nil] at hwalk
      exact hleast links (Nat.lt_succ_self _) arrival hwalk
  · have hnot : other.child last ∉ fresh :=
      fun hmem => hfollowed ((List.mem_erase_of_ne hsame).2 hmem)
    exact h other last text hstep hother hnot arrival hwalk

/-- A link that a walk goes through is followed to where the walk comes out of it. -/
theorem follow_of_link (hstep : IsStep name) (hshort : octetCount name ≤ nameLimit)
    (hentry : t.entry? (here.child name) = some (.link target)) (hbarred : t.Barred fresh (links + 1))
    (ih : ∀ fewer ≤ links, ∀ fresh here names arrival, t.Barred fresh fewer →
      t.walk fewer here names = .ok arrival → t.follow fresh here names = .plain arrival.path)
    {others : List Text} {arrival : Arrival}
    (h : t.walk links (startOf here target) (Text.splitOn '/' target ++ others) = .ok arrival) :
    t.follow fresh here (name :: others) = .plain arrival.path := by
  obtain ⟨middle, hmiddle, hrest⟩ : ∃ middle,
      t.walk links (startOf here target) (Text.splitOn '/' target) = .ok middle ∧
        t.follow fresh middle.path others = .plain arrival.path := by
    by_cases hnil : others = []
    · subst hnil
      rw [List.append_nil] at h
      exact ⟨arrival, h, by rw [follow]⟩
    · obtain ⟨there, hthere⟩ := walk_directory_of_append hnil h
      obtain ⟨left, hleft, hgo⟩ := walk_append hthere
      rw [hgo] at h
      exact ⟨_, hthere, ih left hleft _ _ _ _ (hbarred.mono (Nat.le_succ_of_le hleft)) h⟩
  have hmem : here.child name ∈ fresh := by
    by_contra hfollowed
    refine hbarred here name target hstep hentry hfollowed middle ?_
    rw [walk_of_short hstep hshort, hentry]
    simpa using hmiddle
  -- The way to the end of the link is followed with as few links as it takes.
  classical
  have hends : ∃ fewer, ∃ arrival,
      t.walk fewer (startOf here target) (Text.splitOn '/' target) = .ok arrival :=
    ⟨links, middle, hmiddle⟩
  have hfewer : Nat.find hends ≤ links := Nat.find_min' hends ⟨middle, hmiddle⟩
  have hleast : ∀ fewer < Nat.find hends, ∀ arrival,
      t.walk fewer (startOf here target) (Text.splitOn '/' target) ≠ .ok arrival :=
    fun fewer hless arrival hwalk => Nat.find_min hends hless ⟨arrival, hwalk⟩
  obtain ⟨there, hthere⟩ := Nat.find_spec hends
  obtain rfl : there = middle :=
    Except.ok.inj ((walk_mono hthere hfewer).symm.trans hmiddle)
  have htarget := ih _ hfewer _ _ _ _
    ((hbarred.mono (Nat.le_succ_of_le hfewer)).erase hentry hleast) hthere
  rw [follow, if_neg (by simp [hstep.1]), if_neg hstep.2, hentry]
  simp only
  rw [dif_pos hmem, htarget]
  exact hrest

end Links

/-- Following links leads where a walk leads. The induction is on the links that the walk may meet:
the way to the end of a link, and the way on from there, each meet fewer. -/
theorem follow_of_walk {t : Tree} {links : Nat} {fresh : List Path} {here : Path}
    {names : List Text} {arrival : Arrival} (hbarred : t.Barred fresh links)
    (h : t.walk links here names = .ok arrival) :
    t.follow fresh here names = .plain arrival.path := by
  induction links using Nat.strongRecOn generalizing fresh here names arrival with
  | _ links ihlinks =>
  induction names generalizing here with
  | nil =>
      rw [walk] at h
      obtain rfl := Except.ok.inj h
      rw [follow]
      rfl
  | cons name others ih =>
      by_cases hstays : staysPut name = true
      · rw [walk_of_stays hstays] at h
        rw [follow, if_pos hstays]
        exact ih h
      by_cases hup : name = upName
      · subst hup
        rw [walk_up] at h
        rw [follow, if_neg (by decide), if_pos rfl]
        exact ih h
      have hstep : IsStep name := ⟨by simpa using hstays, hup⟩
      by_cases hlong : nameLimit < octetCount name
      · rw [walk_of_long hstep hlong] at h
        cases h
      have hshort := Nat.le_of_not_lt hlong
      rw [walk_of_short hstep hshort] at h
      have hgo (hentry : ∀ target, t.entry? (here.child name) ≠ some (.link target)) :=
        follow_of_step hstep hentry fresh others
      rcases hentry : t.entry? (here.child name) with _ | (contents | _ | target) <;>
        rw [hentry] at h hgo
      · simp only at h
        split at h
        · next hend =>
          obtain rfl := Except.ok.inj h
          rw [hgo (by simp), List.isEmpty_iff.1 hend, follow]
          rfl
        · cases h
      · simp only at h
        split at h
        · next hend =>
          obtain rfl := Except.ok.inj h
          rw [hgo (by simp), List.isEmpty_iff.1 hend, follow]
          rfl
        · cases h
      · rw [hgo (by simp)]
        exact ih h
      · rcases links with _ | links
        · cases h
        · exact follow_of_link hstep hshort hentry hbarred
            (fun fewer hfewer _ _ _ _ => ihlinks fewer (Nat.lt_succ_of_le hfewer)) h

theorem mem_links {t : Tree} {p : Path} {target : Text} (h : t.entry? p = some (.link target)) :
    p ∈ t.links := by
  unfold entry? at h
  split at h
  · cases h
  · exact List.mem_filterMap.2 ⟨_, mem_of_lookup h, rfl⟩

/-- A path that leads somewhere is resolved to the path there. -/
theorem resolve_of_arrival {t : Tree} {p : Path} {arrival : Arrival} (h : t.look p = .ok arrival) :
    t.resolve p = .ok arrival.path := by
  unfold look at h
  split at h
  · cases h
  have hbarred : t.Barred t.links linkLimit :=
    fun _ _ _ _ hentry hfollowed => absurd (mem_links hentry) hfollowed
  unfold resolve
  rw [follow_of_walk hbarred h]

/-! ## Trees with the names of a file system -/

/-- All names in the tree are names that a file system can have. -/
def IsNamed (t : Tree) : Prop :=
  ∀ place ∈ t.entries, ∀ name ∈ place.1.names, Path.IsProper name ∧ '\x00' ∉ name

instance (t : Tree) : Decidable t.IsNamed :=
  inferInstanceAs (Decidable (∀ place ∈ t.entries, ∀ name ∈ place.1.names, _))

theorem IsNamed.of_entry {t : Tree} (h : t.IsNamed) {p : Path} {entry : Entry}
    (hentry : t.entry? p = some entry) :
    ∀ name ∈ p.names, Path.IsProper name ∧ '\x00' ∉ name := by
  unfold entry? at hentry
  split at hentry
  · next htop =>
    rw [htop]
    exact List.forall_mem_nil _
  · exact h _ (mem_of_lookup hentry)

/-- The names on the way to a file are names of the tree. -/
theorem IsNamed.of_look {t : Tree} (h : t.IsNamed) {root q : Path} {names : List Text}
    {held : Contents} (hsteps : ∀ name ∈ names, Path.IsStep name)
    (hlook : t.look (pathAt root names) = .ok (.file q held)) :
    ∀ name ∈ names, Path.IsProper name ∧ '\x00' ∉ name := by
  intro name hname
  obtain ⟨above, below, rfl⟩ := List.append_of_mem hname
  unfold look at hlook
  split at hlook
  · cases hlook
  have hsplit : (pathAt root (above ++ name :: below)).names =
      (root.names ++ above) ++ name :: below := (List.append_assoc _ _ _).symm
  rw [hsplit] at hlook
  obtain ⟨there, hthere⟩ := walk_directory_of_append (List.cons_ne_nil _ _) hlook
  obtain ⟨left, -, hgo⟩ := walk_append hthere
  rw [hgo] at hlook
  have hstep := hsteps name hname
  by_cases hlong : nameLimit < octetCount name
  · rw [walk_of_long hstep hlong] at hlook
    cases hlook
  rw [walk_of_short hstep (Nat.le_of_not_lt hlong)] at hlook
  rcases hentry : t.entry? (there.child name) with _ | entry
  · rw [hentry] at hlook
    simp only at hlook
    split at hlook <;> cases hlook
  · exact h.of_entry hentry name (List.mem_append_right _ (List.mem_singleton_self name))

/-- A file that looking arrives at is found at its own path, if that is not too long. -/
theorem IsNamed.look_of_file {t : Tree} (h : t.IsNamed) {p q : Path} {held : Contents}
    (hlook : t.look p = .ok (.file q held)) (hshort : octetCount q.text < pathLimit) :
    t.look q = .ok (.file q held) := by
  obtain ⟨hsolid, hentry⟩ := found_of_look hlook
  have hne : q.names ≠ [] := by
    intro hnil
    rw [eq_top_of_names_nil hnil, entry?_top] at hentry
    cases hentry
  have hproper := (h.of_entry hentry q.name (name_mem_names hne)).1
  rw [← child_parent_name hne] at hentry hshort ⊢
  rw [look_child hsolid hshort, walk_of_short hproper.isStep hproper.isShort, hentry]
  rfl

end Tree

end BundleHook
