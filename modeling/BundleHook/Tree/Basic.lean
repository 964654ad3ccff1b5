import BundleHook.Text.Utf8
import BundleHook.Tree.Path

/-!
# Trees of files

A tree says what stands at each path: a file, a directory, or a link with the text that it leads to.
A walk goes from the top through directories and through the links that it meets, and may stop at a
name that is still free.
-/

namespace BundleHook

/-- What a file holds. -/
abbrev Contents := List UInt8

/-- What stands at a path. -/
inductive Entry where
  | file (contents : Contents)
  | directory
  | link (target : Text)
  deriving DecidableEq, Repr

/-- The entries of a tree; the directory at the top is not among them. -/
structure Tree where
  entries : List (Path × Entry)

/-- What keeps an operation from a path. -/
inductive Obstacle where
  | missing
  | taken
  /-- A file stands where a directory is needed. -/
  | notDirectory
  | isDirectory
  | longName
  | manyLinks
  deriving DecidableEq, Repr

/-- The number by which a system reports the obstacle. -/
def Obstacle.number : Obstacle → Nat
  | missing => 2
  | taken => 17
  | notDirectory => 20
  | isDirectory => 21
  | longName => 36
  | manyLinks => 40

/-- The words in which a system reports the obstacle. -/
def Obstacle.words : Obstacle → String
  | missing => "No such file or directory"
  | taken => "File exists"
  | notDirectory => "Not a directory"
  | isDirectory => "Is a directory"
  | longName => "File name too long"
  | manyLinks => "Too many levels of symbolic links"

/-- Where a walk arrives, with the path that no link and no way back up stands in. -/
inductive Arrival where
  | directory (path : Path)
  | file (path : Path) (contents : Contents)
  /-- A free name in a directory. -/
  | free (path : Path)
  deriving DecidableEq, Repr

namespace Tree

def entry? (t : Tree) (p : Path) : Option Entry :=
  if p = .top then some .directory else t.entries.lookup p

def put (t : Tree) (p : Path) (entry : Entry) : Tree :=
  if (t.entries.lookup p).isSome then
    ⟨t.entries.map fun (q, old) => if q = p then (q, entry) else (q, old)⟩
  else ⟨t.entries ++ [(p, entry)]⟩

/-- The tree without a path and what is below it. -/
def remove (t : Tree) (p : Path) : Tree := ⟨t.entries.filter fun (q, _) => !p.reaches q⟩

def files (t : Tree) : List (Path × Contents) :=
  t.entries.filterMap fun (p, entry) =>
    match entry with
    | .file contents => some (p, contents)
    | _ => none

def links (t : Tree) : List Path :=
  t.entries.filterMap fun (p, entry) =>
    match entry with
    | .link _ => some p
    | _ => none

/-! ## Walks -/

def nameLimit : Nat := 255

def pathLimit : Nat := 4096

def linkLimit : Nat := 40

def octetCount (t : Text) : Nat := (Utf8.encode t).length

/-- Walks on from the directory `here`; `links` more links may be met. -/
def walk (t : Tree) (links : Nat) (here : Path) : List Text → Except Obstacle Arrival
  | [] => .ok (.directory here)
  | name :: others =>
    if Path.staysPut name then walk t links here others
    else if name = Path.upName then walk t links here.parent others
    else if nameLimit < octetCount name then .error .longName
    else
      match t.entry? (here.child name) with
      | none => if others.isEmpty then .ok (.free (here.child name)) else .error .missing
      | some .directory => walk t links (here.child name) others
      | some (.file contents) =>
        if others.isEmpty then .ok (.file (here.child name) contents) else .error .notDirectory
      | some (.link target) =>
        match links with
        | 0 => .error .manyLinks
        | links + 1 =>
          walk t links (Path.startOf here target) (Text.splitOn '/' target ++ others)
termination_by names => (links, names.length)

def look (t : Tree) (p : Path) : Except Obstacle Arrival :=
  if pathLimit ≤ octetCount p.text then .error .longName else t.walk linkLimit .top p.names

end Tree

end BundleHook
