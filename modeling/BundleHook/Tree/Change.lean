import BundleHook.Tree.Basic

/-!
# Changing a tree

A file is written where a walk arrives: over the file that stands there, or under a free name. A
directory is made together with those above it.
-/

namespace BundleHook

/-- An operation on a path that was refused. -/
structure Refusal where
  obstacle : Obstacle
  path : Path
  deriving DecidableEq, Repr

namespace Tree

/-- The tree with a new file, or with new contents of a file. -/
def write (t : Tree) (p : Path) (contents : Contents) : Except Refusal Tree :=
  match t.look p with
  | .ok (.file q _) | .ok (.free q) => .ok (t.put q (.file contents))
  | .ok (.directory _) => .error ⟨.isDirectory, p⟩
  | .error obstacle => .error ⟨obstacle, p⟩

/-- The tree with one more directory, when there is not one already. -/
def addDirectory (t : Tree) (p : Path) : Except Refusal Tree :=
  match t.look p with
  | .ok (.directory _) => .ok t
  | .ok (.free q) => .ok (t.put q .directory)
  | .ok (.file _ _) => .error ⟨.taken, p⟩
  | .error obstacle => .error ⟨obstacle, p⟩

/-- The tree with a directory and all those above it. Those that could be made stay when one of them
is refused. -/
def addDirectories (t : Tree) (p : Path) : Option Refusal × Tree :=
  match t.addDirectory p with
  | .ok made => (none, made)
  | .error refusal =>
    if _h : refusal.obstacle = .missing ∧ p.names ≠ [] then
      match addDirectories t p.parent with
      | (some above, made) => (some above, made)
      | (none, above) =>
        match above.addDirectory p with
        | .ok made => (none, made)
        | .error refusal => (some refusal, above)
    else (some refusal, t)
termination_by p.names.length
decreasing_by exact Path.length_parent p _h.2

end Tree

end BundleHook
