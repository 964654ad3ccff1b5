import BundleHook.Text.Blank

/-!
# Paths

A path leads from the top of a tree of files down to one of them, name by name. The name `..` goes
one step back up; it may stand in a path until the path is collapsed.
-/

namespace BundleHook

/-- A path from the top. -/
structure Path where
  names : List Text
  deriving DecidableEq, Repr

namespace Path

def top : Path := ⟨[]⟩

def upName : Text := ['.', '.']

/-- Does a name stay where it is? -/
def staysPut (name : Text) : Bool := name.isEmpty || name = ['.']

/-- The names between the slashes of a text, without those that stay where they are. -/
def namesOf (t : Text) : List Text := (Text.splitOn '/' t).filter fun name => !staysPut name

def isAbsolute (t : Text) : Bool := t.head? = some '/'

/-- Where a text begins to lead, seen from a directory. -/
def startOf (directory : Path) (t : Text) : Path := if isAbsolute t then top else directory

/-- The path that a text means, seen from a directory. -/
def ofText (directory : Path) (t : Text) : Path := ⟨(startOf directory t).names ++ namesOf t⟩

def text (p : Path) : Text := '/' :: Text.join ['/'] p.names

def parent (p : Path) : Path := ⟨p.names.dropLast⟩

def child (p : Path) (name : Text) : Path := ⟨p.names ++ [name]⟩

def name (p : Path) : Text := p.names.getLast?.getD []

/-- The names that lead from `p` to `q`, when `q` is `p` or below it. -/
def namesTo? (p q : Path) : Option (List Text) :=
  if p.names.isPrefixOf q.names then some (q.names.drop p.names.length) else none

/-- Is `q` the same as `p` or below it? -/
def reaches (p q : Path) : Bool := p.names.isPrefixOf q.names

/-- The path with every way back up taken; the top is its own parent. -/
def collapse (names : List Text) : Path :=
  names.foldl (fun p name => if name = upName then p.parent else p.child name) top

/-- The names that two lists have in common at their starts. -/
def commonNames : List Text → List Text → List Text
  | a :: as, b :: bs => if a = b then a :: commonNames as bs else []
  | _, _ => []

/-- The last directory above both paths, or the path that both are. -/
def common (p q : Path) : Path := ⟨commonNames p.names q.names⟩

theorem reaches_refl (p : Path) : p.reaches p = true := by
  simp [reaches, List.isPrefixOf_iff_prefix]

theorem reaches_child (p : Path) (name : Text) : p.reaches (p.child name) = true := by
  simp [reaches, child, List.isPrefixOf_iff_prefix]

@[simp] theorem parent_child (p : Path) (name : Text) : (p.child name).parent = p := by
  simp [parent, child]

theorem length_parent (p : Path) (h : p.names ≠ []) : p.parent.names.length < p.names.length := by
  have := List.length_pos_iff.2 h
  simp only [parent, List.length_dropLast]
  omega

end Path

end BundleHook
