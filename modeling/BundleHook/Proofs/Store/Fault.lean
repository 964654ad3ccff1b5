import BundleHook.Store.Basic

/-!
# The faults that a key meets

Every operation on a key first gets its path. That a key has no path is no fault of a file, and
whatever a key with a path meets is one.
-/

namespace BundleHook.Store

variable {store : Store} {t : Tree} {key : String} {p : Path} {fault : StoreFault}

theorem isOfFile_of_pathOf (h : store.pathOf t key = .error fault) : fault.isOfFile = false := by
  simp only [pathOf] at h
  split at h
  · obtain rfl := Except.error.inj h
    rfl
  · split at h
    · obtain rfl := Except.error.inj h
      rfl
    · split at h <;> cases h

/-! ## Keys without a path -/

section NoPath

variable (h : store.pathOf t key = .error fault)

include h

theorem read_of_pathOf_error : store.read t key = .error fault := by
  unfold read
  rw [h]
  rfl

theorem readAsText_of_pathOf_error : store.readAsText t key = .error fault := by
  unfold readAsText
  rw [read_of_pathOf_error h]
  rfl

theorem has_of_pathOf_error : store.has t key = .error fault := by
  unfold has
  rw [h]
  rfl

theorem write_of_pathOf_error (contents : Contents) :
    store.write t key contents = (some fault, t) := by
  unfold write
  rw [h]

end NoPath

/-! ## Keys with a path -/

section HasPath

variable (hpath : store.pathOf t key = .ok p)

include hpath

theorem read_of_pathOf :
    store.read t key =
      match t.look p with
      | .ok (.file _ contents) => .ok contents
      | .error .longName => .error (.refused ⟨.longName, p⟩)
      | _ => .error (.unknownKey key) := by
  unfold read
  rw [hpath]
  rfl

theorem has_of_pathOf :
    store.has t key =
      match t.look p with
      | .ok (.free _) => .ok false
      | .ok _ => .ok true
      | .error .longName => .error (.refused ⟨.longName, p⟩)
      | .error _ => .ok false := by
  unfold has
  rw [hpath]
  rfl

theorem write_of_pathOf (contents : Contents) :
    store.write t key contents =
      match t.addDirectories p.parent with
      | (some refusal, made) => (some (.refused refusal), made)
      | (none, made) =>
        match made.write p contents with
        | .ok written => (none, written)
        | .error refusal => (some (.refused refusal), made) := by
  rcases hmade : t.addDirectories p.parent with ⟨_ | refusal, made⟩
  · cases hwritten : made.write p contents <;> simp only [write, hpath, hmade, hwritten]
  · simp only [write, hpath, hmade]

theorem isOfFile_of_read (h : store.read t key = .error fault) : fault.isOfFile = true := by
  rw [read_of_pathOf hpath] at h
  split at h <;> cases h <;> rfl

theorem isOfFile_of_has (h : store.has t key = .error fault) : fault.isOfFile = true := by
  rw [has_of_pathOf hpath] at h
  split at h <;> cases h
  rfl

theorem isOfFile_of_write {contents : Contents} {after : Tree}
    (h : store.write t key contents = (some fault, after)) : fault.isOfFile = true := by
  rw [write_of_pathOf hpath] at h
  split at h
  · obtain rfl := Option.some.inj (congrArg Prod.fst h)
    rfl
  · split at h
    · cases congrArg Prod.fst h
    · obtain rfl := Option.some.inj (congrArg Prod.fst h)
      rfl

end HasPath

theorem readAsText_of_read {octets : Contents} (h : store.read t key = .ok octets) :
    store.readAsText t key = (Utf8.decode octets).mapError .notText := by
  unfold readAsText
  rw [h]
  rfl

theorem readAsText_of_read_error (h : store.read t key = .error fault) :
    store.readAsText t key = .error fault := by
  unfold readAsText
  rw [h]
  rfl

theorem isOfFile_of_readAsText (hpath : store.pathOf t key = .ok p)
    (h : store.readAsText t key = .error fault) : fault.isOfFile = true := by
  rcases hread : store.read t key with fault' | octets
  · rw [readAsText_of_read_error hread] at h
    obtain rfl := Except.error.inj h
    exact isOfFile_of_read hpath hread
  · rw [readAsText_of_read hread] at h
    rcases hdecode : Utf8.decode octets with flaw | text
    · rw [hdecode] at h
      obtain rfl := Except.error.inj h
      rfl
    · rw [hdecode] at h
      cases h

end BundleHook.Store
