import BundleHook.Store.Fault

/-!
# Stores

The files of a project are reached by keys: paths with slashes, seen from the root of the project. A
key is cleaned of what leads out of the root, and one that leads out of it nevertheless, by a link
or otherwise, means a file of its whole name directly in the root.
-/

namespace BundleHook

/-- The store of the files at and below a root, which no link stands in. -/
structure Store where
  root : Path
  deriving DecidableEq, Repr

namespace Store

def ofProject (t : Tree) (project : Path) : Except StoreFault Store :=
  match t.resolve project with
  | .ok root => .ok ⟨root⟩
  | .error path => .error (.circle path)

def isSlash (c : Char) : Bool := c = '/' || c = '\\'

/-- A key without slashes at its start, pairs of dots, and colons. -/
def cleanKey (key : Text) : Text :=
  Text.without [':'] (Text.without Path.upName (key.dropWhile isSlash))

def flatKey (key : Text) : Text := key.map fun c => if isSlash c then '_' else c

def pathOf (store : Store) (t : Tree) (key : String) : Except StoreFault Path :=
  let clean := cleanKey key.toList
  if clean.contains '\x00' then .error .nullCharacter
  else
    match t.resolve (Path.ofText store.root clean) with
    | .error path => .error (.circle path)
    | .ok path =>
      if store.root.reaches path then .ok path
      else .ok (Path.ofText store.root (flatKey clean))

def read (store : Store) (t : Tree) (key : String) : Except StoreFault Contents := do
  let path ← store.pathOf t key
  match t.look path with
  | .ok (.file _ contents) => return contents
  | .error .longName => throw (.refused ⟨.longName, path⟩)
  | _ => throw (.unknownKey key)

/-- The text of a file, with its line ends as they are. -/
def readAsText (store : Store) (t : Tree) (key : String) : Except StoreFault Text := do
  (Utf8.decode (← store.read t key)).mapError .notText

def has (store : Store) (t : Tree) (key : String) : Except StoreFault Bool := do
  let path ← store.pathOf t key
  match t.look path with
  | .ok (.free _) => return false
  | .ok _ => return true
  | .error .longName => throw (.refused ⟨.longName, path⟩)
  | .error _ => return false

/-- The tree with a file written, and with the directories above it. -/
def write (store : Store) (t : Tree) (key : String) (contents : Contents) :
    Option StoreFault × Tree :=
  match store.pathOf t key with
  | .error fault => (some fault, t)
  | .ok path =>
    match t.addDirectories path.parent with
    | (some refusal, made) => (some (.refused refusal), made)
    | (none, made) =>
      match made.write path contents with
      | .ok written => (none, written)
      | .error refusal => (some (.refused refusal), made)

def writeAsText (store : Store) (t : Tree) (key : String) (text : Text) :
    Option StoreFault × Tree :=
  store.write t key (Utf8.encode text)

/-- The keys of the files that a pattern selects, sorted. -/
def glob (store : Store) (t : Tree) (pattern : String) : Except StoreFault (List String) := do
  let steps ← (Glob.steps pattern.toList).mapError .badPattern
  match Glob.selectedTexts t store.root steps with
  | .ok keys => return keys.map String.ofList
  | .error path => throw (.refused ⟨.longName, path⟩)

end Store

end BundleHook
