import BundleHook.Markup.Name
import BundleHook.Markup.Prolog
import BundleHook.Markup.Lexer

/-!
# Events of a document

The meaning of the tokens: elements open and close, references become the characters they stand for,
and names get their namespaces. A reading goes on until its first fault; the events before a fault
are kept.
-/

namespace BundleHook.Markup

/-- What a document tells. -/
inductive Event where
  | opened (name : Name) (attributes : List (Name × Text))
  | closed
  | char (c : Char)
  | comment (body : Text)
  /-- A reference to an entity whose text is not in the document. -/
  | skipped (name : Text)
  | entityDeclared
  deriving DecidableEq, Repr

/-- An element that is open: its name as written, and the bindings outside it. -/
structure OpenElement where
  written : Text
  outer : Bindings

/-- The state inside the root element: the open elements, innermost first, and the events with their
offsets, latest first. -/
structure Content where
  definitions : Definitions
  bindings : Bindings
  opened : List OpenElement
  events : List (Nat × Event)

/-- The state after a token, and the fault found in it. -/
abbrev Content.Result := Content × Option Fault

/-! ## Start tags -/

/-- The attributes of a start tag as far as they have been read: the names as written with their
values, latest first, and the bindings they make. -/
structure AttributesRead where
  values : List (Text × Text)
  bindings : Bindings

namespace AttributesRead

/-- Adds an attribute; one that declares a namespace binds its prefix. -/
def add (r : AttributesRead) (namespaces : Bool) (written value : Text) :
    Except Flaw AttributesRead :=
  let values := (written, value) :: r.values
  match if namespaces then declaredPrefix? written else none with
  | some short => (r.bindings.bind short value).map fun bindings => ⟨values, bindings⟩
  | none => .ok ⟨values, r.bindings⟩

/-- Adds an attribute that stands in the tag at the offset `tagAt` of the document. -/
def addWritten (d : Definitions) (declared : List DeclaredAttribute) (tagAt : Nat)
    (place : Nat → Nat) (r : AttributesRead) (written : RawAttribute) :
    Except Fault AttributesRead :=
  if r.values.any (·.1 = written.name) then .error ⟨.duplicateAttribute, place written.index⟩
  else
    let isText := (declared.find? (·.name = written.name)).all (·.isText)
    match valueOf d isText written.value with
    | .error fault => .error ⟨fault.flaw, (fault.offset.map place).getD tagAt⟩
    | .ok value => (r.add d.namespaces written.name value).mapError fun flaw => ⟨flaw, tagAt⟩

def addDeclared (namespaces : Bool) (r : AttributesRead) (declared : DeclaredAttribute) :
    Except Flaw AttributesRead :=
  match declared.default with
  | some value =>
    if r.values.any (·.1 = declared.name) then .ok r else r.add namespaces declared.name value
  | none => .ok r

/-- The attributes that declare no namespace, by their names in namespaces; no two of these may be
the same. -/
def named (bindings : Bindings) :
    (attributes : List (Text × Text)) → (before : List (Name × Text)) →
      Except Flaw (List (Name × Text))
  | [], before => .ok before.reverse
  | (written, value) :: rest, before =>
    if (declaredPrefix? written).isSome then named bindings rest before
    else
      match bindings.attributeName written with
      | .error flaw => .error flaw
      | .ok name =>
        if before.any (·.1 = name) then .error .duplicateAttribute
        else named bindings rest ((name, value) :: before)

end AttributesRead

namespace Content

def add (c : Content) (offset : Nat) (event : Event) : Content :=
  { c with events := (offset, event) :: c.events }

/-- Opens an element; in a document without namespaces names are taken as they are written. -/
def openElement (c : Content) (tagAt : Nat) (place : Nat → Nat) (written : Text)
    (attributes : List RawAttribute) : Except Fault Content := do
  let d := c.definitions
  let declared := d.attributesOf written
  let r ← attributes.foldlM (AttributesRead.addWritten d declared tagAt place) ⟨[], c.bindings⟩
  let named : Except Flaw (Name × List (Name × Text) × Bindings) := do
    let r ← declared.foldlM (AttributesRead.addDeclared d.namespaces) r
    if d.namespaces then
      let attributes ← AttributesRead.named r.bindings r.values.reverse []
      return (← r.bindings.elementName written, attributes, r.bindings)
    else
      return (⟨[], written⟩, r.values.reverse.map fun (name, value) => (⟨[], name⟩, value),
        r.bindings)
  let (name, attributes, bindings) ← named.mapError fun flaw => ⟨flaw, tagAt⟩
  return { c with
    bindings
    opened := ⟨written, c.bindings⟩ :: c.opened
    events := (tagAt, .opened name attributes) :: c.events }

def closeElement (c : Content) (offset : Nat) : Content :=
  match c.opened with
  | [] => c
  | element :: opened =>
    { c with bindings := element.outer, opened, events := (offset, .closed) :: c.events }

/-! ## Tokens of the content -/

def takeAll (take : Content → Nat × Token → Result) : Content → List (Nat × Token) → Result
  | c, [] => (c, none)
  | c, token :: rest =>
    match take c token with
    | (c, none) => takeAll take c rest
    | stopped => stopped

/-- Takes a reference in the content. `enter` takes the text of an entity. -/
def takeReference (enter : (name text : Text) → Content → Result) (offset : Nat) (c : Content) :
    Reference → Result
  | .character code =>
    match referredChar? code with
    | some d => (c.add offset (.char d), none)
    | none => (c, some ⟨.badCharacterReference, offset⟩)
  | .entity name =>
    match predefinedEntity? name with
    | some d => (c.add offset (.char d), none)
    | none =>
      match c.definitions.entities.lookup name with
      | some (.internal text) => enter name text c
      | some .external => (c.add offset (.skipped name), none)
      | some .unparsed => (c, some ⟨.binaryEntity, offset⟩)
      | none =>
        if c.definitions.requiresEntities then (c, some ⟨.undefinedEntity, offset⟩)
        else (c.add offset (.skipped name), none)

/-- Takes a token of the content. `place` gives the offset that a token counts for, and elements
down to the depth `floor` may not be closed. -/
def takeToken (enter : Nat → (name text : Text) → Content → Result) (place : Nat → Nat)
    (tagNameAt : Nat) (floor : Nat) (c : Content) (entry : Nat × Token) : Result :=
  let offset := place entry.1
  match entry.2 with
  | .startTag written attributes isEmpty stop =>
    match c.openElement offset place written attributes with
    | .error fault => (c, some fault)
    | .ok opened => (if isEmpty then opened.closeElement (place stop) else opened, none)
  | .endTag written =>
    match c.opened with
    | element :: _ =>
      if c.opened.length ≤ floor then (c, some ⟨.asynchronousEntity, offset⟩)
      else if element.written = written then (c.closeElement offset, none)
      else (c, some ⟨.mismatchedTag, offset + tagNameAt⟩)
    | [] => (c, some ⟨.asynchronousEntity, offset⟩)
  | .char d => (c.add offset (.char d), none)
  | .reference reference => takeReference (enter offset) offset c reference
  | .comment body => (c.add offset (.comment body), none)
  | .declaration _ => (c, some ⟨.misplacedDeclaration, offset⟩)
  | _ => (c, none)

/-- Takes the text of an entity. Everything in it counts for the offset of the reference. `budget`
bounds how deep entities nest, and `entered` names those that are being read. -/
def takeEntity : (budget : Nat) → (entered : List Text) → (offset : Nat) → (name text : Text) →
    Content → Result
  | 0, _, offset, _, _, c => (c, some ⟨.recursiveEntity, offset⟩)
  | budget + 1, entered, offset, name, text, c =>
    if entered.contains name then (c, some ⟨.recursiveEntity, offset⟩)
    else
      let floor := c.opened.length
      let tokens := Tokens.ofEntity c.definitions.namespaces text
      let take := takeToken (takeEntity budget (name :: entered)) (fun _ => offset) 0 floor
      match takeAll take c tokens.list with
      | (c, none) =>
        match tokens.fault with
        | some fault => (c, some ⟨fault.flaw, offset⟩)
        | none =>
          if c.opened.length = floor then (c, none) else (c, some ⟨.asynchronousEntity, offset⟩)
      | stopped => stopped

def take (c : Content) (entry : Nat × Token) : Result :=
  takeToken (takeEntity c.definitions.entities.length []) id 2 0 c entry

end Content

/-! ## Whole documents -/

/-- The part of a document whose tokens are being taken. -/
inductive Part where
  | prolog (prolog : Prolog)
  | root (content : Content)
  | epilog

/-- The state of a reading; the events come latest first. -/
structure Reading where
  part : Part
  events : List (Nat × Event)
  fault : Option Fault

namespace Reading

def initial (namespaces isStrict : Bool) : Reading :=
  ⟨.prolog (.initial namespaces isStrict), [], none⟩

def takeProlog (r : Reading) (p : Prolog) (offset : Nat) (token : Token) : Reading :=
  let (next, fault) := p.step offset token
  let events :=
    match p.entityAt, next.entityAt with
    | none, some declaredAt => (declaredAt, .entityDeclared) :: r.events
    | _, _ => r.events
  let part :=
    if token = .rootStart then .root ⟨next.definitions, .initial, [], events⟩ else .prolog next
  ⟨part, events, fault⟩

/-- The events of a prolog gain at most the mark of a declared entity. -/
theorem mem_takeProlog {r : Reading} {p : Prolog} {offset : Nat} {token : Token}
    {entry : Nat × Event} (h : entry ∈ (r.takeProlog p offset token).events) :
    entry ∈ r.events ∨ entry.2 = .entityDeclared := by
  simp only [takeProlog] at h
  split at h
  · rcases List.mem_cons.1 h with rfl | h
    · exact .inr rfl
    · exact .inl h
  · exact .inl h

def takeRoot (c : Content) (entry : Nat × Token) : Reading :=
  let (next, fault) := c.take entry
  ⟨if next.opened.isEmpty then .epilog else .root next, next.events, fault⟩

def takeEpilog (r : Reading) (offset : Nat) : Token → Reading
  | .space | .comment _ | .instruction => r
  | _ => { r with fault := some ⟨.junkAfterElement, offset⟩ }

/-- Takes a token, unless there has been a fault. -/
def take (r : Reading) (entry : Nat × Token) : Reading :=
  if r.fault.isSome then r
  else match r.part with
    | .prolog p => r.takeProlog p entry.1 entry.2
    | .root c => takeRoot c entry
    | .epilog => r.takeEpilog entry.1 entry.2

end Reading

/-- The events of a document with their offsets, in order, and the fault behind them. -/
structure Events where
  list : List (Nat × Event)
  fault : Option Fault

/-- The events that the tokens of a document tell. A fault of the tokens comes last. -/
def Events.ofTokens (namespaces isStrict : Bool) (tokens : Tokens) : Events :=
  let r := tokens.list.foldl Reading.take (.initial namespaces isStrict)
  ⟨r.events.reverse, r.fault.or tokens.fault⟩

def Events.ofDocument (namespaces isStrict : Bool) (document : Text) : Events :=
  .ofTokens namespaces isStrict (.ofDocument namespaces document)

end BundleHook.Markup
