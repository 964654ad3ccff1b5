import BundleHook.Markup.Token

/-!
# Entities and attribute values

A document may declare entities, which stand for text, and default values of attributes. This
module holds what has been declared and the value of an attribute in the light of it.
-/

namespace BundleHook.Markup

/-- What an entity stands for. -/
inductive Entity where
  | internal (text : Text)
  | external
  | unparsed
  deriving DecidableEq, Repr

/-- A declared attribute: `isText` tells plain text from lists of words. -/
structure DeclaredAttribute where
  name : Text
  isText : Bool
  default : Option Text
  deriving DecidableEq, Repr

/-- What the declarations of a document say. -/
structure Definitions where
  namespaces : Bool
  entities : List (Text × Entity)
  /-- The declared attributes of each element, in order. -/
  attributes : List (Text × List DeclaredAttribute)
  /-- Some declarations lie outside the document. -/
  isIncomplete : Bool
  /-- Declarations are passed over, since one that is not known may come before them. -/
  isDeaf : Bool
  /-- The document says that it depends on no outer declarations. -/
  isStandalone : Bool
  deriving DecidableEq, Repr

namespace Definitions

/-- Has every entity to be declared? -/
def requiresEntities (d : Definitions) : Bool := d.isStandalone || !d.isIncomplete

/-- The definitions of a document before its first declaration. -/
def initial (namespaces : Bool) : Definitions := ⟨namespaces, [], [], false, false, false⟩

def attributesOf (d : Definitions) (element : Text) : List DeclaredAttribute :=
  (d.attributes.lookup element).getD []

/-- Declares an entity, unless its name is taken. -/
def declareEntity (d : Definitions) (name : Text) (entity : Entity) : Definitions :=
  if (d.entities.lookup name).isSome then d
  else { d with entities := d.entities ++ [(name, entity)] }

/-- Declares an attribute of an element; of two with a value the first one counts. -/
def declareAttribute (d : Definitions) (element : Text) (declared : DeclaredAttribute)
    (isIdentifier : Bool) : Definitions :=
  let known := d.attributesOf element
  if (declared.default.isSome || isIdentifier) && known.any (·.name = declared.name) then d
  else
    { d with
      attributes :=
        (element, known ++ [declared]) :: d.attributes.filter fun entry => entry.1 ≠ element }

end Definitions

/-! ## Parts of a value given as text -/

/-- How far the text of a value has been read. -/
inductive ValueMode where
  | plain
  | afterReturn
  | reference (index : Nat) (mode : ReferenceMode)
  deriving DecidableEq, Repr

/-- The parts of a value, from its text; `index` is the offset of the text and the parts come
latest first. -/
def piecesFrom (namespaces : Bool) :
    (index : Nat) → ValueMode → List (Nat × Piece) → Text → Except Fault (List (Nat × Piece))
  | _, .reference start _, _, [] => .error ⟨.invalidToken, start⟩
  | _, _, pieces, [] => .ok pieces.reverse
  | index, .reference start mode, pieces, c :: rest =>
    match mode.step namespaces c with
    | .more mode => piecesFrom namespaces (index + 1) (.reference start mode) pieces rest
    | .done reference =>
      piecesFrom namespaces (index + 1) .plain ((start, .reference reference) :: pieces) rest
    | .refused => .error ⟨.invalidToken, index⟩
  | index, mode, pieces, c :: rest =>
    if c = '&' then piecesFrom namespaces (index + 1) (.reference index .opened) pieces rest
    else if c = '<' || isForbidden c then .error ⟨.invalidToken, index⟩
    else if c = '\n' && mode = .afterReturn then
      piecesFrom namespaces (index + 1) .plain pieces rest
    else if isSpace c then
      piecesFrom namespaces (index + 1) (if c = '\r' then .afterReturn else .plain)
        ((index, .space) :: pieces) rest
    else piecesFrom namespaces (index + 1) .plain ((index, .plain c) :: pieces) rest

/-! ## The text of an entity -/

/-- How far the text of an entity has been read. -/
inductive EntityMode where
  | plain
  | afterReturn
  | reference (index : Nat) (mode : ReferenceMode)
  | percent (index : Nat)
  | parameter (index : Nat)
  deriving DecidableEq, Repr

/-- The text an entity stands for, from the text of its declaration at the offset `index`; what has
been read is given from its end. References by number are replaced, those by name are kept. -/
def entityTextFrom (namespaces : Bool) :
    (index : Nat) → EntityMode → (read : Text) → Text → Except Fault Text
  | _, .reference start _, _, [] => .error ⟨.invalidToken, start⟩
  | _, .percent start, _, [] => .error ⟨.invalidToken, start⟩
  | _, .parameter start, _, [] => .error ⟨.invalidToken, start⟩
  | _, _, read, [] => .ok read.reverse
  | index, .reference start mode, read, c :: rest =>
    match mode.step namespaces c with
    | .more mode => entityTextFrom namespaces (index + 1) (.reference start mode) read rest
    | .done (.entity name) =>
      entityTextFrom namespaces (index + 1) .plain (';' :: name.reverse ++ '&' :: read) rest
    | .done (.character code) =>
      match referredChar? code with
      | some d => entityTextFrom namespaces (index + 1) .plain (d :: read) rest
      | none => .error ⟨.badCharacterReference, start⟩
    | .refused => .error ⟨.invalidToken, index⟩
  | index, .percent start, read, c :: rest =>
    if beginsName namespaces c then
      entityTextFrom namespaces (index + 1) (.parameter start) read rest
    else .error ⟨.invalidToken, index⟩
  | index, .parameter start, read, c :: rest =>
    if continuesName namespaces c then
      entityTextFrom namespaces (index + 1) (.parameter start) read rest
    else if c = ';' then .error ⟨.parameterReference, start⟩
    else .error ⟨.invalidToken, index⟩
  | index, mode, read, c :: rest =>
    if c = '&' then entityTextFrom namespaces (index + 1) (.reference index .opened) read rest
    else if c = '%' then entityTextFrom namespaces (index + 1) (.percent index) read rest
    else if c = '\n' && mode = .afterReturn then
      entityTextFrom namespaces (index + 1) .plain read rest
    else if c = '\r' then entityTextFrom namespaces (index + 1) .afterReturn ('\n' :: read) rest
    else entityTextFrom namespaces (index + 1) .plain (c :: read) rest

/-! ## The value -/

/-- A flaw in a value; without an offset it counts as one of the whole tag. -/
structure ValueFault where
  flaw : Flaw
  offset : Option Nat

/-- Adds a space to a value, given from its end. In a list of words there is one between each two
and none before the first. -/
def addSpace (isText : Bool) (value : Text) : Text :=
  if !isText && (value.isEmpty || value.head? = some ' ') then value else ' ' :: value

/-- Adds one part of a value to what has been read of it, which is given from its end. `enter` adds
the text of an entity, and `here` is the offset a flaw of the part itself counts for. -/
def addPiece (d : Definitions) (isText : Bool)
    (enter : (name text value : Text) → Except ValueFault Text) (here : Option Nat) (value : Text) :
    Piece → Except ValueFault Text
  | .plain c => .ok (c :: value)
  | .space => .ok (addSpace isText value)
  | .reference (.character code) =>
    match referredChar? code with
    | some c => .ok (if c = ' ' then addSpace isText value else c :: value)
    | none => .error ⟨.badCharacterReference, here⟩
  | .reference (.entity name) =>
    match predefinedEntity? name with
    | some c => .ok (c :: value)
    | none =>
      match d.entities.lookup name with
      | some (.internal text) => enter name text value
      | some .external => .error ⟨.externalEntityInAttribute, here⟩
      | some .unparsed => .error ⟨.binaryEntity, here⟩
      | none => if d.requiresEntities then .error ⟨.undefinedEntity, none⟩ else .ok value

/-- Adds the parts of a value. `budget` bounds how deep entities nest, and `opened` names those that
are being read; a flaw inside one has no offset of its own. -/
def addPieces (d : Definitions) (isText : Bool) :
    (budget : Nat) → (opened : List Text) → Text → List (Nat × Piece) → Except ValueFault Text
  | 0, opened, value, pieces =>
    pieces.foldlM (fun value (index, piece) =>
      addPiece d isText (fun _ _ _ => .error ⟨.recursiveEntity, none⟩)
        (if opened.isEmpty then some index else none) value piece) value
  | budget + 1, opened, value, pieces =>
    let enter (name text value : Text) : Except ValueFault Text :=
      if opened.contains name then .error ⟨.recursiveEntity, none⟩
      else
        match piecesFrom d.namespaces 0 .plain [] text with
        | .ok inner => addPieces d isText budget (name :: opened) value inner
        | .error fault => .error ⟨fault.flaw, none⟩
    pieces.foldlM (fun value (index, piece) =>
      addPiece d isText enter (if opened.isEmpty then some index else none) value piece) value

def valueOf (d : Definitions) (isText : Bool) (pieces : List (Nat × Piece)) :
    Except ValueFault Text :=
  (addPieces d isText d.entities.length [] [] pieces).map fun value =>
    let value := if !isText && value.head? = some ' ' then value.drop 1 else value
    value.reverse

end BundleHook.Markup
