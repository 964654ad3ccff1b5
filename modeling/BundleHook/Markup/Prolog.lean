import BundleHook.Markup.Declaration
import BundleHook.Markup.Entity

/-!
# The declarations before the root element

A document may declare its type, and inside that entities, attributes, elements and notations. The
stage says which token may come next; a token that may not come is a fault.
-/

namespace BundleHook.Markup

/-- An entity that is being declared. -/
structure EntityDraft where
  name : Text
  isParameter : Bool
  /-- The declaration counts: it is the first one of a name that is free. -/
  isKept : Bool
  deriving DecidableEq, Repr

/-- An attribute that is being declared. -/
structure AttributeDraft where
  element : Text
  name : Text
  isText : Bool
  isIdentifier : Bool
  deriving DecidableEq, Repr

/-- What may come next. -/
inductive Stage where
  | opening
  | misc
  | afterDoctype
  | doctypeName
  | doctypeHead
  | doctypePublic
  | doctypeSystem
  | doctypeTail
  | doctypeEnd
  | subset
  | entityOpen
  | parameterOpen
  | entityHead (draft : EntityDraft)
  | entityPublic (draft : EntityDraft)
  | entitySystem (draft : EntityDraft)
  | entityTail (draft : EntityDraft)
  | entityData (draft : EntityDraft)
  | noteOpen
  | noteHead
  | notePublic
  | noteSystem
  | noteTail
  | attributesOpen
  | attributesBody (element : Text)
  | attributeType (element name : Text)
  | choiceOpen (draft : AttributeDraft)
  | choiceNext (draft : AttributeDraft)
  | noteChoiceOpen (draft : AttributeDraft)
  | noteChoice (draft : AttributeDraft)
  | noteChoiceNext (draft : AttributeDraft)
  | attributeDefault (draft : AttributeDraft)
  | attributeFixed (draft : AttributeDraft)
  | elementOpen
  | elementHead
  | modelOpen
  | mixed
  | mixedName
  | mixedNext
  /-- An item of a content model; the sign between the items of each open group, innermost first. -/
  | modelItem (signs : List (Option Char))
  | modelNext (signs : List (Option Char))
  | closing
  deriving DecidableEq, Repr

/-- The state of the declarations. -/
structure Prolog where
  stage : Stage
  definitions : Definitions
  entityAt : Option Nat
  /-- The encoding the document declares, with its offset. -/
  encoding : Option (Text × Nat)
  /-- The public identifier of the document type has to be well-formed. -/
  isStrict : Bool

/-- The state after a token, and the fault found in it. -/
abbrev Prolog.Result := Prolog × Option Fault

namespace Prolog

def enter (p : Prolog) (stage : Stage) : Result := ({ p with stage }, none)

def fail (p : Prolog) (flaw : Flaw) (offset : Nat) : Result := (p, some ⟨flaw, offset⟩)

def refuse (p : Prolog) (offset : Nat) : Token → Result
  | .parameter _ => p.fail .parameterReference offset
  | .declaration _ => p.fail .misplacedDeclaration offset
  | _ => p.fail .unexpected offset

def noteEntity (p : Prolog) (draft : EntityDraft) (offset : Nat) : Prolog :=
  if draft.isKept then { p with entityAt := p.entityAt.or (some offset) } else p

def keepEntity (p : Prolog) (draft : EntityDraft) (entity : Entity) : Prolog :=
  if draft.isKept && !draft.isParameter then
    { p with definitions := p.definitions.declareEntity draft.name entity }
  else p

def draftEntity (p : Prolog) (name : Text) (isParameter : Bool) : EntityDraft :=
  let d := p.definitions
  let isFree := (predefinedEntity? name).isNone && (d.entities.lookup name).isNone
  ⟨name, isParameter, !d.isDeaf && (isParameter || isFree)⟩

def isPublicIdChar (c : Char) : Bool :=
  c.isAlphanum || (c.toNat < 0x80 && " \r\n-'()+,./:=?;!*#@$_%".toList.contains c)

/-- Goes on behind a public identifier whose opening quote stands at an offset. -/
def publicId (p : Prolog) (offset : Nat) (body : Text) (next : Stage) : Result :=
  let accepted := body.takeWhile isPublicIdChar
  if accepted.length < body.length then p.fail .badPublicId (offset + 1 + accepted.length)
  else p.enter next

def entityValue (p : Prolog) (draft : EntityDraft) (offset : Nat) (body : Text) : Result :=
  if p.definitions.isDeaf then p.enter .closing
  else
    let noted := p.noteEntity draft offset
    match entityTextFrom p.definitions.namespaces (offset + 1) .plain [] body with
    | .ok text => (noted.keepEntity draft (.internal text)).enter .closing
    | .error fault => (noted, some fault)

def attributeWithout (p : Prolog) (draft : AttributeDraft) : Result :=
  let d := p.definitions
  let definitions :=
    if d.isDeaf then d
    else d.declareAttribute draft.element ⟨draft.name, draft.isText, none⟩ draft.isIdentifier
  { p with definitions }.enter (.attributesBody draft.element)

def attributeWith (p : Prolog) (draft : AttributeDraft) (offset : Nat) (body : Text) : Result :=
  let d := p.definitions
  if d.isDeaf then p.enter (.attributesBody draft.element)
  else
    match piecesFrom d.namespaces (offset + 1) .plain [] body with
    | .error fault => (p, some fault)
    | .ok pieces =>
      match valueOf d draft.isText pieces with
      | .error fault => p.fail fault.flaw (fault.offset.getD offset)
      | .ok value =>
        let declared : DeclaredAttribute := ⟨draft.name, draft.isText, some value⟩
        { p with definitions := d.declareAttribute draft.element declared false }.enter
          (.attributesBody draft.element)

def attributeTypes : List String :=
  ["CDATA", "ID", "IDREF", "IDREFS", "ENTITY", "ENTITIES", "NMTOKEN", "NMTOKENS"]

/-- Takes note of the document's declaration of itself. -/
def declare (p : Prolog) (offset : Nat) (body : Text) : Result :=
  match DocumentDeclaration.read (offset + 5) body with
  | .error wrong => p.fail .badDeclaration wrong
  | .ok declared =>
    { p with
      encoding := declared.encoding
      definitions := { p.definitions with isStandalone := declared.isStandalone } }.enter .misc

/-- A token outside the document type. -/
def outside (p : Prolog) (next : Stage) (allowsDoctype : Bool) (offset : Nat) :
    Token → Result
  | .comment _ | .instruction | .rootStart => p.enter next
  | .declOpen keyword =>
    if allowsDoctype && keyword = "DOCTYPE".toList then p.enter .doctypeName
    else p.fail .unexpected offset
  | token => p.refuse offset token

/-- A token at the start of a declaration in the document type. -/
def inSubset (p : Prolog) (offset : Nat) : Token → Result
  | .comment _ | .instruction => p.enter .subset
  | .bracketClose => p.enter .doctypeEnd
  | .parameter _ =>
    let d := p.definitions
    let d := { d with isIncomplete := true, isDeaf := !d.isStandalone }
    { p with definitions := d }.enter .subset
  | .declOpen keyword =>
    if keyword = "ENTITY".toList then p.enter .entityOpen
    else if keyword = "ATTLIST".toList then p.enter .attributesOpen
    else if keyword = "ELEMENT".toList then p.enter .elementOpen
    else if keyword = "NOTATION".toList then p.enter .noteOpen
    else p.fail .unexpected offset
  | token => p.refuse offset token

/-- Goes on behind one of two words that say where a text lies. -/
def locator (p : Prolog) (word : Text) (publicStage systemStage : Stage) (offset : Nat) : Result :=
  if word = "SYSTEM".toList then p.enter systemStage
  else if word = "PUBLIC".toList then p.enter publicStage
  else p.fail .unexpected offset

/-- The document has declarations outside. -/
def opened (p : Prolog) : Prolog :=
  { p with definitions := { p.definitions with isIncomplete := true } }

/-- The sign between the items of the innermost group of a content model. -/
def sign (p : Prolog) (c : Char) (signs : List (Option Char)) (offset : Nat) : Result :=
  match signs with
  | none :: outer => p.enter (.modelItem (some c :: outer))
  | some d :: outer =>
    if c = d then p.enter (.modelItem (some c :: outer)) else p.fail .unexpected offset
  | [] => p.fail .unexpected offset

/-- A token of the document type, by stage. -/
def inDoctype (p : Prolog) (offset : Nat) (token : Token) : Result :=
  match p.stage, token with
  | .doctypeName, .word .name _ | .doctypeName, .word .prefixed _ => p.enter .doctypeHead
  | .doctypeHead, .bracketOpen | .doctypeTail, .bracketOpen => p.enter .subset
  | .doctypeHead, .declClose | .doctypeTail, .declClose | .doctypeEnd, .declClose =>
    p.enter .afterDoctype
  | .doctypeHead, .word .name word => p.locator word .doctypePublic .doctypeSystem offset
  | .doctypePublic, .literal body =>
    if p.isStrict then p.opened.publicId offset body .doctypeSystem
    else p.opened.enter .doctypeSystem
  | .doctypeSystem, .literal _ => p.opened.enter .doctypeTail
  | .entityOpen, .percent => p.enter .parameterOpen
  | .entityOpen, .word .name word => p.enter (.entityHead (p.draftEntity word false))
  | .parameterOpen, .word .name word => p.enter (.entityHead (p.draftEntity word true))
  | .entityHead draft, .word .name word =>
    p.locator word (.entityPublic draft) (.entitySystem draft) offset
  | .entityHead draft, .literal body => p.entityValue draft offset body
  | .entityPublic draft, .literal body => p.publicId offset body (.entitySystem draft)
  | .entitySystem draft, .literal _ => p.enter (.entityTail draft)
  | .entityTail draft, .declClose =>
    ((p.noteEntity draft offset).keepEntity draft .external).enter .subset
  | .entityTail draft, .word .name word =>
    if !draft.isParameter && word = "NDATA".toList then p.enter (.entityData draft)
    else p.fail .unexpected offset
  | .entityData draft, .word .name _ =>
    ((p.noteEntity draft offset).keepEntity draft .unparsed).enter .closing
  | .noteOpen, .word .name _ => p.enter .noteHead
  | .noteHead, .word .name word => p.locator word .notePublic .noteSystem offset
  | .notePublic, .literal body => p.publicId offset body .noteTail
  | .noteSystem, .literal _ | .noteTail, .literal _ => p.enter .closing
  | .noteTail, .declClose => p.enter .subset
  | .attributesOpen, .word .name word | .attributesOpen, .word .prefixed word =>
    p.enter (.attributesBody word)
  | .attributesBody _, .declClose => p.enter .subset
  | .attributesBody element, .word .name word | .attributesBody element, .word .prefixed word =>
    p.enter (.attributeType element word)
  | .attributeType element name, .word .name word =>
    if attributeTypes.any fun known => word = known.toList then
      p.enter (.attributeDefault ⟨element, name, word = "CDATA".toList, word = "ID".toList⟩)
    else if word = "NOTATION".toList then p.enter (.noteChoiceOpen ⟨element, name, false, false⟩)
    else p.fail .unexpected offset
  | .attributeType element name, .parenOpen => p.enter (.choiceOpen ⟨element, name, false, false⟩)
  | .choiceOpen draft, .word _ _ => p.enter (.choiceNext draft)
  | .choiceNext draft, .bar => p.enter (.choiceOpen draft)
  | .choiceNext draft, .parenClose none => p.enter (.attributeDefault draft)
  | .noteChoiceOpen draft, .parenOpen => p.enter (.noteChoice draft)
  | .noteChoice draft, .word .name _ => p.enter (.noteChoiceNext draft)
  | .noteChoiceNext draft, .bar => p.enter (.noteChoice draft)
  | .noteChoiceNext draft, .parenClose none => p.enter (.attributeDefault draft)
  | .attributeDefault draft, .keyword word =>
    if word = "IMPLIED".toList || word = "REQUIRED".toList then p.attributeWithout draft
    else if word = "FIXED".toList then p.enter (.attributeFixed draft)
    else p.fail .unexpected offset
  | .attributeDefault draft, .literal body | .attributeFixed draft, .literal body =>
    p.attributeWith draft offset body
  | .elementOpen, .word .name _ | .elementOpen, .word .prefixed _ => p.enter .elementHead
  | .elementHead, .word .name word =>
    if word = "EMPTY".toList || word = "ANY".toList then p.enter .closing
    else p.fail .unexpected offset
  | .elementHead, .parenOpen => p.enter .modelOpen
  | .modelOpen, .keyword word =>
    if word = "PCDATA".toList then p.enter .mixed else p.fail .unexpected offset
  | .modelOpen, .parenOpen => p.enter (.modelItem [none, none])
  | .modelOpen, .word .name _ | .modelOpen, .word .prefixed _ | .modelOpen, .markedWord _ =>
    p.enter (.modelNext [none])
  | .mixed, .parenClose none | .mixed, .parenClose (some '*') => p.enter .closing
  | .mixed, .bar | .mixedNext, .bar => p.enter .mixedName
  | .mixedName, .word .name _ | .mixedName, .word .prefixed _ => p.enter .mixedNext
  | .mixedNext, .parenClose (some '*') => p.enter .closing
  | .modelItem signs, .parenOpen => p.enter (.modelItem (none :: signs))
  | .modelItem signs, .word .name _ | .modelItem signs, .word .prefixed _
  | .modelItem signs, .markedWord _ => p.enter (.modelNext signs)
  | .modelNext signs, .comma => p.sign ',' signs offset
  | .modelNext signs, .bar => p.sign '|' signs offset
  | .modelNext signs, .parenClose _ =>
    if signs.length ≤ 1 then p.enter .closing else p.enter (.modelNext (signs.drop 1))
  | .closing, .declClose => p.enter .subset
  | _, token => p.refuse offset token

def step (p : Prolog) (offset : Nat) (token : Token) : Result :=
  match p.stage, token with
  | .opening, .space => p.enter .misc
  | _, .space => (p, none)
  | .opening, .declaration body => p.declare offset body
  | .opening, token | .misc, token => p.outside .misc true offset token
  | .afterDoctype, token => p.outside .afterDoctype false offset token
  | .subset, token => p.inSubset offset token
  | _, token => p.inDoctype offset token

def initial (namespaces isStrict : Bool) : Prolog :=
  ⟨.opening, .initial namespaces, none, none, isStrict⟩

end Prolog

end BundleHook.Markup
