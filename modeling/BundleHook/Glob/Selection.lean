import BundleHook.Glob.NamePattern
import BundleHook.Tree.Basic

/-!
# Patterns of paths

A pattern of paths has a pattern for each name on the way; two stars stand for any number of
directories. It selects files below a directory. Links are followed, except by the two stars.
-/

namespace BundleHook.Glob

/-- A step of a pattern. -/
inductive Step where
  | exactly (name : Text)
  | like (pieces : List Piece)
  | anyDepth
  /-- A slash at the end: what is reached has to be a directory. -/
  | inside
  deriving DecidableEq, Repr

/-- Why a text is not a pattern of paths. -/
inductive PatternFault where
  | empty
  | absolute
  | starsInName
  /-- The directory itself, by a dot. -/
  | itself
  /-- The directory itself, by a slash behind a dot. -/
  | insideItself
  deriving DecidableEq, Repr

/-- The wording of a fault; it has none when the pattern leads nowhere. -/
def PatternFault.message : PatternFault → String
  | empty => "Unacceptable pattern: \x27\x27"
  | absolute => "Non-relative patterns are unsupported"
  | starsInName => "Invalid pattern: \x27**\x27 can only be an entire path component"
  | itself | insideItself => ""

def depthName : Text := ['*', '*']

def stepOf (name : Text) : Step :=
  if name = depthName then .anyDepth
  else if isPattern name then .like (pieces name)
  else .exactly name

def steps (t : Text) : Except PatternFault (List Step) :=
  let names := Path.namesOf t
  let endsInside := t.getLast? = some '/'
  if t.isEmpty then .error .empty
  else if Path.isAbsolute t then .error .absolute
  else if names.isEmpty then .error (if endsInside then .insideItself else .itself)
  else if names.any fun name => Text.has depthName name && name ≠ depthName then
    .error .starsInName
  else .ok (names.map stepOf ++ if endsInside then [.inside] else [])

/-! ## Selection -/

/-- The path at the end of some names. -/
def pathAt (root : Path) (names : List Text) : Path := ⟨root.names ++ names⟩

/-- What is asked of the place that a path leads to; a name that is too long ends the selection. -/
def asks (t : Tree) (p : Path) (wanted : Arrival → Bool) : Except Path Bool :=
  match t.look p with
  | .ok arrival => .ok (wanted arrival)
  | .error .longName => .error p
  | .error _ => .ok false

def isDirectory : Arrival → Bool
  | .directory _ => true
  | _ => false

def isFile : Arrival → Bool
  | .file _ _ => true
  | _ => false

def isThere : Arrival → Bool
  | .free _ => false
  | _ => true

def namesIn (t : Tree) (p : Path) : List Text :=
  match t.look p with
  | .ok (.directory q) =>
    t.entries.filterMap fun (r, _) => if r.parent = q ∧ r ≠ .top then some r.name else none
  | _ => []

/-- The ways from a directory to itself and, without links, to the directories below it. -/
def directoriesBelow (t : Tree) (p : Path) : List (List Text) :=
  match t.look p with
  | .ok (.directory q) =>
    [] :: t.entries.filterMap fun (r, entry) =>
      if entry = .directory ∧ r ≠ q then q.namesTo? r else none
  | _ => []

/-- The names that lead along the steps, behind `names`. -/
def select (t : Tree) (root : Path) : List Step → List Text → Except Path (List (List Text))
  | [], names => .ok [names]
  | .inside :: _, names => .ok [names]
  | .exactly name :: others, names => do
    let further := names ++ [name]
    let wanted := if others.isEmpty then isThere else isDirectory
    if ← asks t (pathAt root further) wanted then select t root others further else return []
  | .like pieces :: others, names => do
    let found ← (namesIn t (pathAt root names)).mapM fun name => do
      let further := names ++ [name]
      if covers pieces name &&
          (others.isEmpty || (← asks t (pathAt root further) isDirectory)) then
        select t root others further
      else return []
    return found.flatten
  | .anyDepth :: others, names => do
    let found ← (directoriesBelow t (pathAt root names)).mapM fun way =>
      select t root others (names ++ way)
    return found.flatten.eraseDups

/-- The files that a pattern selects below a directory, each by its names. -/
def filesAlong (t : Tree) (root : Path) (steps : List Step) : Except Path (List (List Text)) := do
  if ← asks t root isDirectory then
    (← select t root steps []).filterM fun names => asks t (pathAt root names) isFile
  else return []

/-- The same as texts, sorted by their characters. -/
def selectedTexts (t : Tree) (root : Path) (steps : List Step) : Except Path (List Text) := do
  let found := (← filesAlong t root steps).map (Text.join ['/'])
  return found.mergeSort fun a b => !decide (b < a)

end BundleHook.Glob
