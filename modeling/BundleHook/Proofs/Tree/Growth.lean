import BundleHook.Proofs.Tree.Extension
import BundleHook.Proofs.Tree.Plain

/-!
# How a project grows

Making directories and writing files takes nothing away from a project and changes no file into a
directory or back. What is new stands on the way to what was written.
-/

namespace BundleHook

open Glob (pathAt)

/-- What an entry is, whatever a file holds. -/
def Entry.kind : Entry → Entry
  | file _ => file []
  | entry => entry

namespace Tree

theorem isSome_fileAt_iff {t : Tree} {p : Path} :
    (t.fileAt p).isSome = true ↔ (t.entry? p).map Entry.kind = some (.file []) := by
  unfold fileAt
  rcases t.entry? p with _ | (_ | _ | _) <;> simp [Entry.kind]

theorem directory_iff {t : Tree} {p : Path} :
    t.entry? p = some .directory ↔ (t.entry? p).map Entry.kind = some .directory := by
  rcases t.entry? p with _ | (_ | _ | _) <;> simp [Entry.kind]

/-- Nothing goes, no entry changes its kind, and what is new stands on the way to `fresh`. -/
structure Grows (root : Path) (fresh : List Text) (t after : Tree) : Prop where
  kept : ∀ p entry, t.entry? p = some entry →
    ∃ later, after.entry? p = some later ∧ later.kind = entry.kind
  added : ∀ p entry, t.entry? p = none → after.entry? p = some entry →
    ∃ before, before <+: fresh ∧ p = pathAt root before

namespace Grows

variable {root : Path} {fresh : List Text} {t between after : Tree}

theorem refl (root : Path) (fresh : List Text) (t : Tree) : Grows root fresh t t where
  kept _ entry h := ⟨entry, h, rfl⟩
  added _ _ hnone hsome := by
    rw [hnone] at hsome
    cases hsome

theorem trans (h : Grows root fresh t between) (hmore : Grows root fresh between after) :
    Grows root fresh t after where
  kept p entry hentry := by
    obtain ⟨later, hlater, hkind⟩ := h.kept p entry hentry
    obtain ⟨last, hlast, hkind'⟩ := hmore.kept p later hlater
    exact ⟨last, hlast, hkind'.trans hkind⟩
  added p entry hnone hsome := by
    rcases hbetween : between.entry? p with _ | other
    · exact hmore.added p entry hbetween hsome
    · exact h.added p other hnone hbetween

theorem mono {more : List Text} (h : Grows root fresh t after) (hmore : fresh <+: more) :
    Grows root more t after where
  kept := h.kept
  added p entry hnone hsome := by
    obtain ⟨before, hbefore, hp⟩ := h.added p entry hnone hsome
    exact ⟨before, hbefore.trans hmore, hp⟩

/-- A free name gets an entry. -/
theorem put_free {names : List Text} (hp : pathAt root names ≠ .top)
    (hfree : t.entry? (pathAt root names) = none) (entry : Entry) :
    Grows root names t (t.put (pathAt root names) entry) where
  kept p old hold := by
    refine ⟨old, ?_, rfl⟩
    rw [entry?_put hp, if_neg, hold]
    rintro rfl
    rw [hfree] at hold
    cases hold
  added p new hnone hsome := by
    rw [entry?_put hp] at hsome
    by_cases heq : p = pathAt root names
    · exact ⟨names, List.prefix_refl names, heq⟩
    · rw [if_neg heq, hnone] at hsome
      cases hsome

/-- A file gets new contents. -/
theorem put_file {p : Path} (hp : p ≠ .top) {held : Contents}
    (hfile : t.entry? p = some (.file held)) (contents : Contents) :
    Grows root fresh t (t.put p (.file contents)) where
  kept q old hold := by
    rw [entry?_put hp]
    by_cases heq : q = p
    · subst heq
      rw [hfile] at hold
      obtain rfl := Option.some.inj hold
      exact ⟨_, if_pos rfl, rfl⟩
    · exact ⟨old, by rw [if_neg heq, hold], rfl⟩
  added q new hnone hsome := by
    rw [entry?_put hp] at hsome
    by_cases heq : q = p
    · subst heq
      rw [hfile] at hnone
      cases hnone
    · rw [if_neg heq, hnone] at hsome
      cases hsome

variable (h : Grows root fresh t after)

include h

theorem kind {p : Path} {entry : Entry} (hentry : t.entry? p = some entry) :
    (after.entry? p).map Entry.kind = some entry.kind := by
  obtain ⟨later, hlater, hkind⟩ := h.kept p entry hentry
  rw [hlater]
  exact congrArg some hkind

theorem directory {p : Path} (hentry : t.entry? p = some .directory) :
    after.entry? p = some .directory :=
  directory_iff.2 (h.kind hentry)

/-- Off the way to what is new the kinds of entries are the same. -/
theorem kind_off_way {names : List Text} (hnames : ¬names <+: fresh) :
    (after.entry? (pathAt root names)).map Entry.kind =
      (t.entry? (pathAt root names)).map Entry.kind := by
  rcases hentry : t.entry? (pathAt root names) with _ | entry
  · rcases hlater : after.entry? (pathAt root names) with _ | later
    · rfl
    · obtain ⟨before, hbefore, heq⟩ := h.added _ later hentry hlater
      rw [pathAt_inj.1 heq] at hnames
      exact absurd hbefore hnames
  · exact h.kind hentry

theorem isSome_fileAt_off_way {names : List Text} (hnames : ¬names <+: fresh) :
    (after.fileAt (pathAt root names)).isSome = (t.fileAt (pathAt root names)).isSome := by
  rw [Bool.eq_iff_iff, isSome_fileAt_iff, isSome_fileAt_iff, h.kind_off_way hnames]

end Grows

/-- A project to which entries are added grows. -/
theorem Extends.grows {root : Path} {fresh : List Text} {t after : Tree}
    (h : Extends root fresh t after) : Grows root fresh t after where
  kept _ entry hentry := ⟨entry, h.entry?_of_some hentry, rfl⟩
  added _ _ hnone hsome := (h.new_of_none hnone hsome).1

/-! ## Writing in a plain project -/

namespace Plain

variable {root : Path} {t : Tree} (h : t.Plain root)

include h

/-- A project stays plain when an entry is set where looking for a plain path has arrived. -/
theorem put_arrival {names : List Text} (hnames : ∀ name ∈ names, Path.IsPlain name)
    (habove : t.Solid (pathAt root names).parent)
    (hold : t.entry? (pathAt root names) ≠ some .directory) {entry : Entry}
    (hlink : ∀ target, entry ≠ .link target) : (t.put (pathAt root names) entry).Plain root := by
  rcases List.eq_nil_or_concat names with rfl | ⟨above, name, rfl⟩
  · rw [pathAt_nil] at hold
    exact absurd h.solid_root.entry? hold
  · rw [List.concat_eq_append] at habove hold ⊢
    rw [parent_pathAt] at habove
    exact h.put (hnames name (by simp)) habove.entry? hold hlink

/-- Nothing is new on the way to what stands there. -/
theorem grows_of_entry {names : List Text} {entry : Entry} {after : Tree}
    (hentry : t.entry? (pathAt root names) = some entry) (hgrows : Grows root names t after)
    (fresh : List Text) : Grows root fresh t after where
  kept := hgrows.kept
  added p new hnone hsome := by
    obtain ⟨before, ⟨more, rfl⟩, rfl⟩ := hgrows.added p new hnone hsome
    by_cases hmore : more = []
    · rw [hmore, List.append_nil, hnone] at hentry
      cases hentry
    · rw [h.directory_of_append hmore hentry] at hnone
      cases hnone

/-- A project stays plain when plain names on a way get entries. -/
theorem of_extends {names : List Text} (hnames : ∀ name ∈ names, Path.IsPlain name) {after : Tree}
    (hafter : after.Linkless root) (hextends : Extends root names t after) : after.Plain root := by
  refine ⟨hafter.lookRoot, hafter.unique, hafter.noLink, ?_, hafter.parent⟩
  intro others entry hentry name hname
  rcases hold : t.entry? (pathAt root others) with _ | old
  · obtain ⟨⟨before, hbefore, heq⟩, -⟩ := hextends.new_of_none hold hentry
    rw [pathAt_inj] at heq
    subst heq
    exact hnames name (hbefore.subset hname)
  · exact h.names others old hold name hname

theorem addDirectories_grows {names : List Text} (hnames : ∀ name ∈ names, Path.IsPlain name)
    {refusal : Option Refusal} {made : Tree}
    (hmade : t.addDirectories (pathAt root names) = (refusal, made)) :
    made.Plain root ∧ Grows root names t made ∧
      (refusal = none → made.entry? (pathAt root names) = some .directory) := by
  obtain ⟨hlinkless, hextends, hentry⟩ :=
    h.linkless.addDirectories (fun name hname => (hnames name hname).isProper) hmade
  exact ⟨h.of_extends hnames hlinkless hextends, hextends.grows, hentry⟩

theorem write_grows {names : List Text} (hnames : ∀ name ∈ names, Path.IsPlain name)
    {contents : Contents} {written : Tree}
    (hwritten : t.write (pathAt root names) contents = .ok written) :
    written.Plain root ∧ Grows root names t written ∧
      ∀ p, written.fileAt p = if p = pathAt root names then some contents else t.fileAt p := by
  obtain ⟨arrival, hlook, hfile, htop, rfl⟩ := put_of_write hwritten
  obtain ⟨hpath, hfound⟩ := h.found_of_look hnames hlook
  rw [hpath] at htop ⊢
  have hset (p : Path) : (t.put (pathAt root names) (.file contents)).fileAt p =
      if p = pathAt root names then some contents else t.fileAt p :=
    fileAt_put_file htop t p contents
  cases arrival with
  | directory q => exact absurd rfl (hfile q)
  | file q held =>
      obtain rfl : q = pathAt root names := hpath
      obtain ⟨habove, hentry⟩ := hfound
      have hold := ne_directory_of_file hentry
      exact ⟨h.put_arrival hnames habove hold (by simp), .put_file htop hentry contents, hset⟩
  | free q =>
      obtain rfl : q = pathAt root names := hpath
      obtain ⟨habove, hentry⟩ := hfound
      have hold := ne_directory_of_free hentry
      exact ⟨h.put_arrival hnames habove hold (by simp), .put_free htop hentry _, hset⟩

end Plain

end Tree

end BundleHook
