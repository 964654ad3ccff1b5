import BundleHook.Proofs.Store.Key
import BundleHook.Proofs.Tree.Changes
import BundleHook.Proofs.Tree.Resolution
import Mathlib

/-!
# Which keys stay in the root

The path of a key is resolved and then checked against the root, and a path that has passed the
check without running into a circle of links does lie in the root. Two paths are used as they stand:
the key as a single name, which takes the place of one that has failed the check, and what a circle
of links has left over. They leave the root exactly when they are the way back up or lead through a
link out of it.

* `Store.Unresolved` — the paths that are used as they stand;
* `contains_iff_not_strays` — a key stays in the root exactly when no such path leads out of it.
-/

namespace BundleHook

namespace Tree

/-- What is done with a path ends at `q`: where looking for it arrives as things are, or where a
file is written once the directories above it are made. -/
def LeadsTo (t : Tree) (p q : Path) : Prop :=
  (∃ arrival, t.look p = .ok arrival ∧ arrival.path = q) ∨
    ∃ made written contents, t.addDirectories p.parent = (none, made) ∧
      made.write p contents = .ok written ∧ written.fileAt q ≠ made.fileAt q

end Tree

namespace Store

variable (store : Store) (t : Tree) (key : String)

/-- The paths that are used without having been resolved and checked, as far as they are not known
to lie in the root by themselves. -/
inductive Unresolved : Path → Prop where
  /-- The key as a single name, when that is the way back up or the name of a link. -/
  | name {p : Path} (resolved : t.resolve (store.meantPath key) = .ok p)
      (outside : store.root.reaches p = false)
      (leads : flatName key = Path.upName ∨
        ∃ target, t.entry? (store.root.child (flatName key)) = some (.link target)) :
      Unresolved (Path.ofText store.root (flatName key))
  /-- What a circle of links has left of the path. -/
  | circle {p : Path} (runs : t.Circles (store.meantPath key))
      (resolved : t.resolve (store.meantPath key) = .ok p)
      (inside : store.root.reaches p = true) : Unresolved p

/-- An unresolved path of the key leads out of the root. -/
def Strays : Prop :=
  ∃ p q, store.Unresolved t key p ∧ t.LeadsTo p q ∧ store.root.reaches q = false

/-- What is done with a key stays in the root: reading it and asking for it, which look for its
path, and writing it. -/
structure Contains : Prop where
  seen : ∀ p arrival, store.pathOf t key = .ok p → t.look p = .ok arrival →
    store.root.reaches arrival.path = true
  written : ∀ contents q, (store.write t key contents).2.fileAt q ≠ t.fileAt q →
    store.root.reaches q = true

end Store

/-! ## Where an operation leads -/

/-- A path without links that may still be free leads nowhere but to itself, also when directories
are made for it. -/
theorem Tree.path_of_leadsTo {t : Tree} {p q : Path} (hfree : t.LinkFree p) (h : t.LeadsTo p q) :
    q = p := by
  rcases h with ⟨arrival, hlook, rfl⟩ | ⟨made, written, contents, hmade, hwritten, hq⟩
  · exact path_of_look hfree hlook
  · have hadds : t.AddsDirectories made := by
      have := addsDirectories_addDirectories t p.parent
      rwa [hmade] at this
    obtain ⟨arrival, hlook, -, htop, rfl⟩ := put_of_write hwritten
    rw [path_of_look (hadds.linkFree hfree) hlook] at htop hq
    rw [fileAt_put_file htop] at hq
    by_cases hqp : q = p
    · exact hqp
    · exact absurd (if_neg hqp) hq

namespace Store

variable {store : Store} {t : Tree} {key : String}

theorem fileAt_of_pathOf_error {fault : StoreFault} (h : store.pathOf t key = .error fault)
    (contents : Contents) (q : Path) : (store.write t key contents).2.fileAt q = t.fileAt q := by
  unfold write
  rw [h]

/-- A write that changes a file has made the directories above it and found the path writable. -/
theorem write_changes_iff {p : Path} (h : store.pathOf t key = .ok p) (contents : Contents)
    (q : Path) :
    (store.write t key contents).2.fileAt q ≠ t.fileAt q ↔
      ∃ made written, t.addDirectories p.parent = (none, made) ∧
        made.write p contents = .ok written ∧ written.fileAt q ≠ made.fileAt q := by
  have hadds := t.addsDirectories_addDirectories p.parent
  simp only [write, h]
  rcases hmade : t.addDirectories p.parent with ⟨_ | refusal, made⟩
  · rw [hmade] at hadds
    rcases hwritten : made.write p contents with refusal | written
    · simp [hwritten, hadds.fileAt q]
    · simp [hwritten, hadds.fileAt q]
  · rw [hmade] at hadds
    simp [hadds.fileAt q]

/-- What is done with a key is what is done with its path. -/
theorem contains_iff_of_pathOf {p : Path} (h : store.pathOf t key = .ok p) :
    store.Contains t key ↔ ∀ q, t.LeadsTo p q → store.root.reaches q = true := by
  constructor
  · rintro ⟨hseen, hwritten⟩ q (⟨arrival, hlook, rfl⟩ | ⟨made, written, contents, hq⟩)
    · exact hseen p arrival h hlook
    · exact hwritten contents q ((write_changes_iff h contents q).2 ⟨made, written, hq⟩)
  · intro hleads
    refine ⟨fun p' arrival hp' hlook => ?_, fun contents q hq => ?_⟩
    · rw [h] at hp'
      obtain rfl := Except.ok.inj hp'
      exact hleads _ (.inl ⟨arrival, hlook, rfl⟩)
    · obtain ⟨made, written, hq⟩ := (write_changes_iff h contents q).1 hq
      exact hleads q (.inr ⟨made, written, contents, hq⟩)

theorem contains_of_pathOf_error {fault : StoreFault} (h : store.pathOf t key = .error fault) :
    store.Contains t key where
  seen p arrival hp _ := by
    rw [h] at hp
    cases hp
  written contents q hq := absurd (fileAt_of_pathOf_error h contents q) hq

/-! ## The paths that a key may mean -/

theorem pathOf_of_unresolved (hkey : '\x00' ∉ key.toList) {p : Path}
    (h : store.Unresolved t key p) : store.pathOf t key = .ok p := by
  rw [pathOf_eq hkey]
  cases h with
  | name resolved outside leads => simp [resolved, outside]
  | circle runs resolved inside => simp [resolved, inside]

/-- The key as a single name, when it is a proper name in a root without links and no link
itself. -/
theorem linkFree_flatName (hroot : t.LinkFree store.root) (hup : flatName key ≠ Path.upName)
    (hlink : ∀ target, t.entry? (store.root.child (flatName key)) ≠ some (.link target)) :
    t.LinkFree (Path.ofText store.root (flatName key)) := by
  rw [flatName, Path.ofText_of_not_mem (not_mem_flatKey _)]
  split
  · exact hroot
  · next hstays => exact hroot.child ⟨by simpa using hstays, hup⟩ hlink

/-- A path of a key is free of links, and in the root, unless it is one that is used unresolved. -/
theorem unresolved_or_linkFree (hroot : t.LinkFree store.root) (hkey : '\x00' ∉ key.toList)
    {p : Path} (h : store.pathOf t key = .ok p) :
    store.Unresolved t key p ∨ t.LinkFree p ∧ store.root.reaches p = true := by
  rw [pathOf_eq hkey] at h
  rcases hresolved : t.resolve (store.meantPath key) with path | path
  · simp [hresolved] at h
  cases hinside : store.root.reaches path with
  | true =>
      simp only [hresolved, hinside] at h
      obtain rfl := Except.ok.inj h
      -- Only a circle of links lets a path pass the check that has not been resolved to its end.
      by_cases hcircle : t.Circles (store.meantPath key)
      · exact .inl (.circle hcircle hresolved hinside)
      · exact .inr ⟨Tree.linkFree_of_resolve hcircle hresolved, hinside⟩
  | false =>
      simp only [hresolved, hinside] at h
      obtain rfl := Except.ok.inj h
      by_cases hleads : flatName key = Path.upName ∨
          ∃ target, t.entry? (store.root.child (flatName key)) = some (.link target)
      · exact .inl (.name hresolved hinside hleads)
      · rw [not_or, not_exists] at hleads
        refine .inr ⟨linkFree_flatName hroot hleads.1 hleads.2, ?_⟩
        rw [flatName, Path.ofText_of_not_mem (not_mem_flatKey _)]
        split
        · exact store.root.reaches_refl
        · exact store.root.reaches_child _

/-- A key stays in the root exactly when no path of it that is used unresolved leads out of it. -/
theorem contains_iff_not_strays (hroot : t.LinkFree store.root) (hkey : '\x00' ∉ key.toList) :
    store.Contains t key ↔ ¬store.Strays t key := by
  constructor
  · rintro hcontains ⟨p, q, hp, hleads, hout⟩
    have hin := (contains_iff_of_pathOf (pathOf_of_unresolved hkey hp)).1 hcontains q hleads
    rw [hin] at hout
    cases hout
  · intro hstrays
    rcases hpath : store.pathOf t key with fault | p
    · exact contains_of_pathOf_error hpath
    refine (contains_iff_of_pathOf hpath).2 fun q hleads => ?_
    rcases unresolved_or_linkFree hroot hkey hpath with hp | ⟨hfree, hinside⟩
    · exact Bool.of_not_eq_false fun hout => hstrays ⟨p, q, hp, hleads, hout⟩
    · rw [Tree.path_of_leadsTo hfree hleads]
      exact hinside

/-- A project with a link out of it. -/
def leakyTree : Tree :=
  ⟨[(⟨["project".toList]⟩, .directory),
    (⟨["project".toList, "out".toList]⟩, .link "../secret".toList)]⟩

def leakyStore : Store := ⟨⟨["project".toList]⟩⟩

private theorem linkFree_leakyStore : leakyTree.LinkFree leakyStore.root := by
  have hlook : leakyTree.look leakyStore.root = .ok (.directory leakyStore.root) := by cbv
  exact (Tree.found_of_look hlook).linkFree

theorem contains_iff_not_strays_leakyStore :
    leakyTree.LinkFree leakyStore.root ∧ '\x00' ∉ "out".toList ∧
      (leakyStore.Contains leakyTree "out" ↔ ¬leakyStore.Strays leakyTree "out") :=
  ⟨linkFree_leakyStore, by decide, contains_iff_not_strays linkFree_leakyStore (by decide)⟩

/-- Writing under the name of the link makes a file beside the project. -/
theorem leakyStore_writes_outside :
    (leakyStore.write leakyTree "out" [120]).2.fileAt ⟨["secret".toList]⟩ = some [120] ∧
      leakyTree.fileAt ⟨["secret".toList]⟩ = none ∧
      leakyStore.root.reaches ⟨["secret".toList]⟩ = false ∧
      ¬leakyStore.Contains leakyTree "out" := by
  have hwritten : (leakyStore.write leakyTree "out" [120]).2.fileAt ⟨["secret".toList]⟩ =
      some [120] := by cbv
  have hbefore : leakyTree.fileAt ⟨["secret".toList]⟩ = none := by cbv
  have houtside : leakyStore.root.reaches ⟨["secret".toList]⟩ = false := by decide
  refine ⟨hwritten, hbefore, houtside, fun hcontains => ?_⟩
  have hinside := hcontains.written [120] ⟨["secret".toList]⟩ (by
    rw [hwritten, hbefore]
    exact Option.some_ne_none _)
  rw [houtside] at hinside
  cases hinside

/-! ## The root of a project

A root has been resolved, and no write puts a link in its way. -/

theorem linkFree_root {project : Path} (h : ofProject t project = .ok store)
    (hcircle : ¬t.Circles project) : t.LinkFree store.root := by
  unfold ofProject at h
  split at h
  · next root hroot =>
    obtain rfl := Except.ok.inj h
    exact Tree.linkFree_of_resolve hcircle hroot
  · cases h

theorem linkFree_write {p : Path} (h : t.LinkFree p) (contents : Contents) :
    (store.write t key contents).2.LinkFree p := by
  unfold write
  split
  · exact h
  · next path _ =>
    have hmade := (t.addsDirectories_addDirectories path.parent).linkFree h
    split
    · next made heq => rwa [heq] at hmade
    · next made heq =>
      rw [heq] at hmade
      split
      · next written hwritten =>
        obtain ⟨arrival, -, -, htop, rfl⟩ := Tree.put_of_write hwritten
        refine ⟨hmade.isStep, fun names hnames target => ?_⟩
        rw [Tree.entry?_put htop]
        split
        · simp
        · exact hmade.noLink names hnames target
      · exact hmade

end Store

end BundleHook
