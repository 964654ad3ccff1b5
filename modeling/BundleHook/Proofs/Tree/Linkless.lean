import BundleHook.Glob.Selection
import BundleHook.Proofs.Text.Parts
import BundleHook.Proofs.Tree.Changes
import BundleHook.Proofs.Tree.Resolution
import Mathlib.Data.List.Induction

/-!
# Projects without links

Below the root of a project without links every name stands for what it says. Looking for a path
finds what stands at the path, or that nothing does.

* `look_of_entry`, `isAbsent_look` — what stands at a path is found;
* `Linkless.put` — a new entry puts no link in the way.
-/

namespace BundleHook

open Glob (pathAt)

/-- A name that a file system can have. -/
structure Path.IsProper (name : Text) : Prop where
  isStep : IsStep name
  noSlash : '/' ∉ name
  isShort : Tree.octetCount name ≤ Tree.nameLimit

instance (name : Text) : Decidable (Path.IsProper name) :=
  decidable_of_iff (Path.IsStep name ∧ '/' ∉ name ∧ Tree.octetCount name ≤ Tree.nameLimit)
    ⟨fun ⟨isStep, noSlash, isShort⟩ => ⟨isStep, noSlash, isShort⟩,
      fun h => ⟨h.isStep, h.noSlash, h.isShort⟩⟩

/-- Where a walk arrives at an entry that is no link. -/
def Entry.arrival (p : Path) : Entry → Arrival
  | .file contents => .file p contents
  | _ => .directory p

/-- Looking finds that nothing is there; no name was too long to look. -/
def IsAbsent : Except Obstacle Arrival → Prop
  | .ok (.free _) => True
  | .ok _ => False
  | .error obstacle => obstacle ≠ .longName

namespace Tree

/-- The tree below a root is as a file system has it, without links. -/
structure Linkless (t : Tree) (root : Path) : Prop where
  lookRoot : t.look root = .ok (.directory root)
  unique : (t.entries.map Prod.fst).Nodup
  noLink : ∀ names target, t.entry? (pathAt root names) ≠ some (.link target)
  names : ∀ names entry, t.entry? (pathAt root names) = some entry →
    ∀ name ∈ names, Path.IsProper name
  parent : ∀ names name entry, t.entry? (pathAt root (names ++ [name])) = some entry →
    t.entry? (pathAt root names) = some .directory

theorem pathAt_nil (root : Path) : pathAt root [] = root := by
  simp [pathAt]

theorem child_pathAt (root : Path) (names : List Text) (name : Text) :
    (pathAt root names).child name = pathAt root (names ++ [name]) := by
  simp [pathAt, Path.child]

theorem parent_pathAt (root : Path) (names : List Text) (name : Text) :
    (pathAt root (names ++ [name])).parent = pathAt root names := by
  rw [← child_pathAt, Path.parent_child]

theorem pathAt_append (root : Path) (names more : List Text) :
    pathAt root (names ++ more) = ⟨(pathAt root names).names ++ more⟩ := by
  simp [pathAt]

theorem pathAt_inj {root : Path} {names others : List Text} :
    pathAt root names = pathAt root others ↔ names = others := by
  simp [pathAt]

namespace Linkless

variable {t : Tree} {root : Path} (h : t.Linkless root)

include h

theorem solid_root : t.Solid root := found_of_look h.lookRoot

/-- What stands below the root stands below directories. -/
theorem directory_of_append {names more : List Text} {entry : Entry} (hmore : more ≠ [])
    (hentry : t.entry? (pathAt root (names ++ more)) = some entry) :
    t.entry? (pathAt root names) = some .directory := by
  induction more using List.reverseRecOn generalizing entry with
  | nil => exact absurd rfl hmore
  | append_singleton more name ih =>
      rw [← List.append_assoc] at hentry
      have habove := h.parent _ name entry hentry
      by_cases hnil : more = []
      · rwa [hnil, List.append_nil] at habove
      · exact ih hnil habove

/-- A directory below the root is solid. -/
theorem solid {names : List Text} (hentry : t.entry? (pathAt root names) = some .directory) :
    t.Solid (pathAt root names) := by
  induction names using List.reverseRecOn with
  | nil =>
      rw [pathAt_nil]
      exact h.solid_root
  | append_singleton names name ih =>
      have hproper := h.names _ _ hentry name (by simp)
      rw [← child_pathAt] at hentry ⊢
      exact (ih (h.parent names name .directory (child_pathAt root names name ▸ hentry))).child
        hproper.isStep hproper.isShort hentry

/-- No link stands in a path below the root. -/
theorem linkFree {names : List Text} (hsteps : ∀ name ∈ names, Path.IsStep name) :
    t.LinkFree (pathAt root names) := by
  induction names using List.reverseRecOn with
  | nil =>
      rw [pathAt_nil]
      exact h.solid_root.linkFree
  | append_singleton names name ih =>
      rw [← child_pathAt]
      refine (ih fun n hn => hsteps n (List.mem_append_left _ hn)).child
        (hsteps name (by simp)) fun target => ?_
      rw [child_pathAt]
      exact h.noLink _ target

/-! ### Looking for a path -/

section Looking

variable {names : List Text}

/-- Looking for a path below the root arrives nowhere else. -/
theorem found_of_look (hsteps : ∀ name ∈ names, Path.IsStep name) {arrival : Arrival}
    (hlook : t.look (pathAt root names) = .ok arrival) :
    arrival.path = pathAt root names ∧ t.Found arrival :=
  ⟨path_of_look (h.linkFree hsteps) hlook, Tree.found_of_look hlook⟩

theorem look_directory (hentry : t.entry? (pathAt root names) = some .directory)
    (hshort : octetCount (pathAt root names).text < pathLimit) :
    t.look (pathAt root names) = .ok (.directory (pathAt root names)) :=
  look_of_solid (h.solid hentry) hshort

/-- Below a directory what is found at a name is what stands there, or a free name. -/
theorem look_below {name : Text} (hstep : Path.IsStep name) (hname : octetCount name ≤ nameLimit)
    (hshort : octetCount (pathAt root (names ++ [name])).text < pathLimit)
    (habove : t.entry? (pathAt root names) = some .directory) :
    t.look (pathAt root (names ++ [name])) =
      match t.entry? (pathAt root (names ++ [name])) with
      | some entry => .ok (entry.arrival (pathAt root (names ++ [name])))
      | none => .ok (.free (pathAt root (names ++ [name]))) := by
  have hlink := h.noLink (names ++ [name])
  rw [← child_pathAt] at hshort hlink ⊢
  rw [look_child (h.solid habove) hshort, walk_of_short hstep hname]
  rcases hentry : t.entry? ((pathAt root names).child name) with _ | entry
  · rfl
  · cases entry with
    | file contents => rfl
    | directory =>
        simp only [Entry.arrival]
        rw [walk]
    | link target => exact absurd hentry (hlink target)

/-- What stands below the root is found, unless its path is too long. -/
theorem look_of_entry {entry : Entry} (hentry : t.entry? (pathAt root names) = some entry)
    (hshort : octetCount (pathAt root names).text < pathLimit) :
    t.look (pathAt root names) = .ok (entry.arrival (pathAt root names)) := by
  rcases List.eq_nil_or_concat names with rfl | ⟨above, name, rfl⟩
  · have hroot : t.entry? (pathAt root []) = some .directory := by
      rw [pathAt_nil]
      exact h.solid_root.entry?
    obtain rfl := Option.some.inj (hroot.symm.trans hentry)
    rw [pathAt_nil]
    exact h.lookRoot
  · rw [List.concat_eq_append] at hentry hshort ⊢
    have hname := h.names _ entry hentry name (by simp)
    rw [h.look_below hname.isStep hname.isShort hshort (h.parent above name entry hentry), hentry]

variable (hsteps : ∀ name ∈ names, Path.IsStep name)
  (hnames : ∀ name ∈ names, octetCount name ≤ nameLimit)

include hsteps hnames

theorem look_eq_longName_iff :
    t.look (pathAt root names) = .error .longName ↔
      pathLimit ≤ octetCount (pathAt root names).text := by
  unfold look
  by_cases hlong : pathLimit ≤ octetCount (pathAt root names).text
  · rw [if_pos hlong]
    exact ⟨fun _ => hlong, fun _ => rfl⟩
  · rw [if_neg hlong]
    have hfree : t.LinkFree ⟨Path.top.names ++ (pathAt root names).names⟩ := h.linkFree hsteps
    have hshort (name : Text) (hname : name ∈ (pathAt root names).names) :
        octetCount name ≤ nameLimit := by
      rcases List.mem_append.1 hname with hroot | hbelow
      · exact h.solid_root.isShort name hroot
      · exact hnames name hbelow
    have hwalk : t.walk linkLimit .top (pathAt root names).names ≠ .error .longName :=
      walk_ne_longName hfree hshort
    exact ⟨fun heq => absurd heq hwalk, fun hle => absurd hle hlong⟩

/-- Where nothing stands nothing is found. -/
theorem isAbsent_look (hentry : t.entry? (pathAt root names) = none)
    (hshort : octetCount (pathAt root names).text < pathLimit) :
    IsAbsent (t.look (pathAt root names)) := by
  rcases hlook : t.look (pathAt root names) with obstacle | arrival
  · rintro rfl
    exact Nat.not_le.2 hshort ((h.look_eq_longName_iff hsteps hnames).1 hlook)
  · obtain ⟨hpath, hfound⟩ := h.found_of_look hsteps hlook
    cases arrival with
    | free q => trivial
    | directory q =>
        obtain rfl : q = pathAt root names := hpath
        rw [hfound.entry?] at hentry
        cases hentry
    | file q held =>
        obtain rfl : q = pathAt root names := hpath
        rw [hfound.2] at hentry
        cases hentry

end Looking

/-! ### Setting an entry -/

/-- No link comes into a project when a name in a directory gets an entry that is none. -/
theorem put {names : List Text} {name : Text} {entry : Entry} (hname : Path.IsProper name)
    (habove : t.entry? (pathAt root names) = some .directory)
    (hold : t.entry? (pathAt root (names ++ [name])) ≠ some .directory)
    (hlink : ∀ target, entry ≠ .link target) :
    (t.put (pathAt root (names ++ [name])) entry).Linkless root := by
  have htop : pathAt root (names ++ [name]) ≠ .top := by
    rw [← child_pathAt]
    exact Path.child_ne_top _ name
  have hself : pathAt root names ≠ pathAt root (names ++ [name]) := by
    rw [Ne, pathAt_inj]
    exact fun heq => by simpa using congrArg List.length heq
  constructor
  case lookRoot =>
    refine look_of_solid ⟨h.solid_root.isStep, h.solid_root.isShort, fun before hbefore => ?_⟩
      (short_of_look h.lookRoot)
    -- The new entry stands below the root, so that it is none of the directories the root lies in.
    have hne : ⟨before⟩ ≠ pathAt root (names ++ [name]) := by
      intro heq
      have hlength := congrArg (fun p => p.names.length) heq
      have hle := hbefore.length_le
      simp only [pathAt, List.length_append, List.length_cons] at hlength
      omega
    rw [entry?_put htop, if_neg hne, h.solid_root.isDirectory before hbefore]
  case unique => exact nodup_put h.unique _ _
  case noLink =>
    intro others target
    rw [entry?_put htop]
    split
    · exact fun heq => hlink target (Option.some.inj heq)
    · exact h.noLink others target
  case names =>
    intro others other hother n hn
    rw [entry?_put htop] at hother
    by_cases heq : pathAt root others = pathAt root (names ++ [name])
    · rw [pathAt_inj] at heq
      subst heq
      rcases List.mem_append.1 hn with hn | hn
      · exact h.names names _ habove n hn
      · rwa [List.mem_singleton.1 hn]
    · rw [if_neg heq] at hother
      exact h.names others other hother n hn
  case parent =>
    intro others n other hother
    rw [entry?_put htop] at hother ⊢
    by_cases heq : pathAt root (others ++ [n]) = pathAt root (names ++ [name])
    · obtain ⟨rfl, -⟩ := List.append_inj' (pathAt_inj.1 heq) rfl
      rw [if_neg hself]
      exact habove
    · rw [if_neg heq] at hother
      have hparent := h.parent others n other hother
      have hother' : pathAt root others ≠ pathAt root (names ++ [name]) :=
        fun hp => hold (hp ▸ hparent)
      rw [if_neg hother']
      exact hparent

end Linkless

end Tree

end BundleHook
