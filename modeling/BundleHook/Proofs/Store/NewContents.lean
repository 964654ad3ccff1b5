import BundleHook.Proofs.Store.Fault
import BundleHook.Proofs.Store.Key
import BundleHook.Proofs.Tree.Overwriting

/-!
# Keys in a tree with new contents

New contents of files move no key: it leads to the file it led to before, which holds what it held
unless there are new contents for it.
-/

namespace BundleHook

namespace Store

/-- The key leads to a file that holds the contents. -/
def Finds (store : Store) (t : Tree) (key : String) (q : Path) (held : Contents) : Prop :=
  ∃ p, store.pathOf t key = .ok p ∧ t.look p = .ok (.file q held)

/-- The key leads to no file that there are new contents for. -/
def Untouched (store : Store) (t : Tree) (news : News) (key : String) : Prop :=
  ∀ q held, store.Finds t key q held → news q = none

/-- The keys do not lead to one file. -/
def Apart (store : Store) (t : Tree) (key other : String) : Prop :=
  ∀ q held held', store.Finds t key q held → ¬ store.Finds t other q held'

variable {store : Store} {t : Tree} {news : News} {key : String} {q : Path} {held : Contents}

theorem Finds.fileAt (h : store.Finds t key q held) : t.fileAt q = some held := by
  obtain ⟨p, -, hlook⟩ := h
  exact Tree.fileAt_eq_some.2 (Tree.found_of_look hlook).2

theorem Finds.of_resolve (hkey : '\x00' ∉ key.toList)
    (hresolve : t.resolve (store.meantPath key) = .ok q) (hroot : store.root.reaches q = true)
    (hlook : t.look q = .ok (.file q held)) : store.Finds t key q held := by
  refine ⟨q, ?_, hlook⟩
  rw [pathOf_eq hkey, hresolve]
  exact if_pos hroot

theorem Finds.unique {q' : Path} {held' : Contents} (h : store.Finds t key q held)
    (h' : store.Finds t key q' held') : q = q' ∧ held = held' := by
  obtain ⟨p, hpath, hlook⟩ := h
  obtain ⟨p', hpath', hlook'⟩ := h'
  obtain rfl := Except.ok.inj (hpath.symm.trans hpath')
  exact Arrival.file.inj (Except.ok.inj (hlook.symm.trans hlook'))

theorem Apart.symm {other : String} (h : store.Apart t key other) : store.Apart t other key :=
  fun q held held' hother hkey => h q held' held hkey hother

theorem Finds.read (h : store.Finds t key q held) : store.read t key = .ok held := by
  obtain ⟨p, hpath, hlook⟩ := h
  rw [read_of_pathOf hpath, hlook]

theorem Finds.readAsText (h : store.Finds t key q held) :
    store.readAsText t key = (Utf8.decode held).mapError .notText :=
  readAsText_of_read h.read

theorem Finds.has (h : store.Finds t key q held) : store.has t key = .ok true := by
  obtain ⟨p, hpath, hlook⟩ := h
  rw [has_of_pathOf hpath, hlook]

theorem exists_finds_of_read (h : store.read t key = .ok held) :
    ∃ q, store.Finds t key q held := by
  rcases hpath : store.pathOf t key with fault | p
  · rw [read_of_pathOf_error hpath] at h
    cases h
  rw [read_of_pathOf hpath] at h
  split at h
  · next q held' hfile =>
    obtain rfl := Except.ok.inj h
    exact ⟨q, p, hpath, hfile⟩
  · cases h
  · cases h

theorem exists_finds_of_readAsText {text : Text} (h : store.readAsText t key = .ok text) :
    ∃ q held, store.Finds t key q held ∧ Utf8.decode held = .ok text := by
  rcases hread : store.read t key with fault | held
  · rw [readAsText_of_read_error hread] at h
    cases h
  obtain ⟨q, hfinds⟩ := exists_finds_of_read hread
  refine ⟨q, held, hfinds, ?_⟩
  rw [hfinds.readAsText] at h
  rcases hdecode : Utf8.decode held with flaw | decoded
  · rw [hdecode] at h
    cases h
  · rw [hdecode] at h
    exact congrArg Except.ok (Except.ok.inj h)

variable (h : t.HasFilesFor news)

include h

theorem pathOf_overwrite (key : String) :
    store.pathOf (t.overwrite news) key = store.pathOf t key := by
  unfold pathOf
  simp only [Tree.resolve_overwrite h]

/-- A file that is found is found with its new contents. -/
theorem Finds.overwrite (hfinds : store.Finds t key q held) :
    store.Finds (t.overwrite news) key q ((news q).getD held) := by
  obtain ⟨p, hpath, hlook⟩ := hfinds
  refine ⟨p, (pathOf_overwrite h key).trans hpath, ?_⟩
  rw [Tree.look_overwrite h, hlook]
  rfl

theorem has_overwrite (key : String) : store.has (t.overwrite news) key = store.has t key := by
  rcases hpath : store.pathOf t key with fault | p
  · rw [has_of_pathOf_error hpath, has_of_pathOf_error ((pathOf_overwrite h key).trans hpath)]
  · rw [has_of_pathOf hpath, has_of_pathOf ((pathOf_overwrite h key).trans hpath),
      Tree.look_overwrite h]
    rcases t.look p with obstacle | there | ⟨q, held⟩ | there <;> rfl

theorem read_overwrite (huntouched : store.Untouched t news key) :
    store.read (t.overwrite news) key = store.read t key := by
  rcases hpath : store.pathOf t key with fault | p
  · rw [read_of_pathOf_error hpath,
      read_of_pathOf_error ((pathOf_overwrite h key).trans hpath)]
  · rw [read_of_pathOf hpath, read_of_pathOf ((pathOf_overwrite h key).trans hpath),
      Tree.look_overwrite h]
    rcases hlook : t.look p with obstacle | there | ⟨q, held⟩ | there
    · rfl
    · rfl
    · simp only [Except.map, Arrival.renewed, huntouched q held ⟨p, hpath, hlook⟩,
        Option.getD_none]
    · rfl

theorem readAsText_overwrite (huntouched : store.Untouched t news key) :
    store.readAsText (t.overwrite news) key = store.readAsText t key := by
  unfold readAsText
  rw [read_overwrite h huntouched]

/-- A file that is there is written over. -/
theorem write_overwrite (hfinds : store.Finds t key q held) (contents : Contents) :
    store.write (t.overwrite news) key contents =
      (none, t.overwrite (news.add q contents)) := by
  have hfile := hfinds.fileAt
  obtain ⟨p, hpath, hlook⟩ := hfinds
  have hlook' : (t.overwrite news).look p = .ok (.file q ((news q).getD held)) := by
    rw [Tree.look_overwrite h, hlook]
    rfl
  obtain ⟨there, hparent⟩ := Tree.look_parent hlook'
  rw [write_of_pathOf ((pathOf_overwrite h key).trans hpath),
    Tree.addDirectories_of_look hparent]
  simp only [Tree.write_of_look hlook', Tree.put_overwrite h hfile]

/-- Writing that is refused, and leaves everything as it is, is still refused. -/
theorem write_refused_overwrite {contents : Contents} {fault : StoreFault}
    (hwrite : store.write t key contents = (some fault, t)) :
    store.write (t.overwrite news) key contents = (some fault, t.overwrite news) := by
  rcases hpath : store.pathOf t key with why | p
  · rw [write_of_pathOf_error hpath] at hwrite
    rw [write_of_pathOf_error ((pathOf_overwrite h key).trans hpath)]
    exact congrArg (·, _) (Prod.mk.inj hwrite).1
  rw [write_of_pathOf hpath] at hwrite
  rw [write_of_pathOf ((pathOf_overwrite h key).trans hpath), Tree.addDirectories_overwrite h]
  have hadds := t.addsDirectories_addDirectories p.parent
  rcases hup : t.addDirectories p.parent with ⟨_ | refusal, made⟩ <;> rw [hup] at hwrite hadds
  · have hmade := h.of_addsDirectories hadds
    simp only [Tree.write] at hwrite ⊢
    rw [Tree.look_overwrite hmade]
    rcases hlook : made.look p with obstacle | there | ⟨q, held⟩ | q <;> rw [hlook] at hwrite
    · obtain ⟨hfault, rfl⟩ := Prod.mk.inj hwrite
      exact congrArg (·, _) hfault
    · obtain ⟨hfault, rfl⟩ := Prod.mk.inj hwrite
      exact congrArg (·, _) hfault
    · cases hwrite
    · cases hwrite
  · obtain ⟨hfault, rfl⟩ := Prod.mk.inj hwrite
    exact congrArg (·, _) hfault

end Store

end BundleHook
