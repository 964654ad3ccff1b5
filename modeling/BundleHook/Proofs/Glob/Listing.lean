import BundleHook.Proofs.Glob.Agreement
import BundleHook.Proofs.Text.LineSplicing
import BundleHook.Proofs.Tree.Arrival

/-!
# The names that a pattern lists

Whatever links there are, a pattern without a way back up lists files by names that lead down, step
by step: the names that it spells out, and names of the tree.

* `isName_of_steps`, `isName_of_mem_select` — the names that a selection goes by;
* `file_of_mem_filesAlong_named` — what is listed is a file, at names of the tree.
-/

namespace BundleHook

namespace Glob

/-- A name that leads one step down, as it stands between slashes. -/
def IsName (name : Text) : Prop := Path.IsStep name ∧ '/' ∉ name

/-- The name that a step spells out leads one step down. -/
def Step.IsName : Step → Prop
  | .exactly name => Glob.IsName name
  | _ => True

/-- A part of a text between marks occurs in the text. -/
theorem infix_of_mem_splitOn {mark : Char} {part t : Text} (h : part ∈ Text.splitOn mark t) :
    part <:+: t := by
  have hjoin (parts : List Text) (hpart : part ∈ parts) : part <:+: Text.join [mark] parts := by
    induction parts with
    | nil => cases hpart
    | cons first others ih =>
        by_cases hnil : others = []
        · subst hnil
          rw [List.mem_singleton.1 hpart]
          exact List.infix_refl _
        rw [Text.join_cons hnil]
        rcases List.mem_cons.1 hpart with rfl | hpart
        · rw [List.append_assoc]
          exact (List.prefix_append _ _).isInfix
        · exact (ih hpart).trans (List.suffix_append _ _).isInfix
  rw [← Text.join_splitOn mark t]
  exact hjoin _ h

theorem isName_of_steps {t : Text} {found : List Step} (hup : ¬Path.upName <:+: t)
    (h : steps t = .ok found) : ∀ step ∈ found, step.IsName := by
  simp only [steps] at h
  split at h
  · cases h
  split at h
  · cases h
  split at h
  · cases h
  split at h
  · cases h
  obtain rfl := Except.ok.inj h
  refine List.forall_mem_append.2 ⟨fun step hstep => ?_, fun step hstep => ?_⟩
  · obtain ⟨name, hname, rfl⟩ := List.mem_map.1 hstep
    obtain ⟨hpart, hstays⟩ := List.mem_filter.1 hname
    unfold stepOf
    split
    · trivial
    split
    · trivial
    refine ⟨⟨by simpa using hstays, fun heq => hup ?_⟩, Text.not_mem_of_mem_splitOn hpart⟩
    rw [← heq]
    exact infix_of_mem_splitOn hpart
  · split at hstep
    · rw [List.mem_singleton.1 hstep]
      trivial
    · cases hstep

/-- A path that is said to lead to a file does. -/
theorem look_of_asks {t : Tree} {p : Path} (hasks : asks t p isFile = .ok true) :
    ∃ q held, t.look p = .ok (.file q held) := by
  unfold asks at hasks
  rcases hlook : t.look p with obstacle | (q | ⟨q, held⟩ | q) <;> rw [hlook] at hasks
  · cases obstacle <;> cases hasks
  · cases hasks
  · exact ⟨q, held, rfl⟩
  · cases hasks

/-- The root itself is not among the files. -/
theorem ne_nil_of_mem_filesAlong {t : Tree} {root : Path} {along : List Step}
    {found : List (List Text)} (hfound : filesAlong t root along = .ok found) {names : List Text}
    (hnames : names ∈ found) : names ≠ [] := by
  rintro rfl
  obtain ⟨selected, -, -, hasks⟩ := select_of_mem_filesAlong hfound hnames
  obtain ⟨q, held, hlook⟩ := look_of_asks hasks
  rw [Tree.pathAt_nil] at hlook
  unfold filesAlong at hfound
  simp only [asks, hlook] at hfound
  obtain rfl : [] = found := Except.ok.inj hfound
  cases hnames

section Named

variable {t : Tree} {root : Path} (h : t.IsNamed)

include h

theorem isName_of_mem_namesIn {p : Path} {name : Text} (hname : name ∈ namesIn t p) :
    IsName name := by
  unfold namesIn at hname
  split at hname
  · obtain ⟨⟨r, entry⟩, hmem, hr⟩ := List.mem_filterMap.1 hname
    obtain ⟨⟨-, htop⟩, hlast⟩ := Option.ite_none_right_eq_some.1 hr
    obtain rfl := Option.some.inj hlast
    have hne : r.names ≠ [] := fun hnil => htop (Path.eq_top_of_names_nil hnil)
    have hproper := (h _ hmem _ (Path.name_mem_names hne)).1
    exact ⟨hproper.isStep, hproper.noSlash⟩
  · cases hname

theorem isName_of_mem_directoriesBelow {p : Path} {way : List Text}
    (hway : way ∈ directoriesBelow t p) : ∀ name ∈ way, IsName name := by
  unfold directoriesBelow at hway
  split at hway
  · rcases List.mem_cons.1 hway with rfl | hway
    · exact List.forall_mem_nil _
    obtain ⟨⟨r, entry⟩, hmem, hr⟩ := List.mem_filterMap.1 hway
    obtain ⟨-, hto⟩ := Option.ite_none_right_eq_some.1 hr
    obtain rfl := namesTo?_eq_some_iff.1 hto
    intro name hname
    have hproper := (h _ hmem name (List.mem_append_right _ hname)).1
    exact ⟨hproper.isStep, hproper.noSlash⟩
  · cases hway

/-- What is selected leads down, name by name. -/
theorem isName_of_mem_select {along : List Step} (hsteps : ∀ step ∈ along, step.IsName)
    {names : List Text} (hnames : ∀ name ∈ names, IsName name) {found : List (List Text)}
    (hfound : select t root along names = .ok found) :
    ∀ out ∈ found, ∀ name ∈ out, IsName name := by
  induction along generalizing names found with
  | nil =>
      obtain rfl := Except.ok.inj hfound
      exact List.forall_mem_singleton.2 hnames
  | cons step others ih =>
      obtain ⟨hstep, hothers⟩ := List.forall_mem_cons.1 hsteps
      have hone {name : Text} (hname : IsName name) :
          ∀ n ∈ names ++ [name], IsName n :=
        List.forall_mem_append.2 ⟨hnames, List.forall_mem_singleton.2 hname⟩
      cases step with
      | exactly name =>
          simp only [select] at hfound
          obtain ⟨answer, -, hfound⟩ := bind_eq_ok.1 hfound
          split at hfound
          · exact ih hothers (hone hstep) hfound
          · obtain rfl := Except.ok.inj hfound
            exact List.forall_mem_nil _
      | like pieces =>
          intro out hout
          rw [select_like] at hfound
          obtain ⟨name, hmem, list, hlist, hin⟩ := (mem_of_mapM_flatten hfound out).1 hout
          unfold selectName at hlist
          obtain ⟨answer, -, hlist⟩ := bind_eq_ok.1 hlist
          split at hlist
          · exact ih hothers (hone (isName_of_mem_namesIn h hmem)) hlist out hin
          · obtain rfl := Except.ok.inj hlist
            cases hin
      | anyDepth =>
          intro out hout
          obtain ⟨way, hway, list, hlist, hin⟩ := ((mem_select_anyDepth hfound out).1).1 hout
          have hfurther := List.forall_mem_append.2 ⟨hnames, isName_of_mem_directoriesBelow h hway⟩
          exact ih hothers hfurther hlist out hin
      | inside =>
          obtain rfl := Except.ok.inj hfound
          exact List.forall_mem_singleton.2 hnames

/-- What is listed is a file, at names of the tree. -/
theorem file_of_mem_filesAlong_named {along : List Step} (hsteps : ∀ step ∈ along, step.IsName)
    {found : List (List Text)} (hfound : filesAlong t root along = .ok found) {names : List Text}
    (hnames : names ∈ found) :
    (∀ name ∈ names, Path.IsProper name ∧ '\x00' ∉ name) ∧
      ∃ q held, t.look (pathAt root names) = .ok (.file q held) := by
  obtain ⟨selected, hselect, hmem, hasks⟩ := select_of_mem_filesAlong hfound hnames
  have hnamed := isName_of_mem_select h hsteps (List.forall_mem_nil _) hselect names hmem
  obtain ⟨q, held, hlook⟩ := look_of_asks hasks
  exact ⟨h.of_look (fun name hname => (hnamed name hname).1) hlook, q, held, hlook⟩

end Named

end Glob

end BundleHook
