import BundleHook.Markup.Character

/-!
# Faults of a document

What can be wrong with a document and where. A place is an offset into the document's text; it is
shown as a line, counted from one, and a column, counted from zero in characters.
-/

namespace BundleHook.Markup

/-- What is wrong with a document. -/
inductive Flaw where
  | unexpected
  | noElement
  | invalidToken
  | unclosedToken
  | partialCharacter
  | mismatchedTag
  | duplicateAttribute
  | junkAfterElement
  | parameterReference
  | undefinedEntity
  | recursiveEntity
  | asynchronousEntity
  | badCharacterReference
  | binaryEntity
  | externalEntityInAttribute
  | misplacedDeclaration
  | wrongEncoding
  | unclosedCdata
  | unboundPrefix
  | undeclaredPrefix
  | badDeclaration
  | badPublicId
  | reservedXmlPrefix
  | reservedXmlnsPrefix
  | reservedNamespace
  /-- A reference, spelled out, to an entity whose text is not in the document. -/
  | skippedEntity (reference : Text)
  deriving DecidableEq, Repr

def Flaw.message : Flaw → String
  | unexpected => "syntax error"
  | noElement => "no element found"
  | invalidToken => "not well-formed (invalid token)"
  | unclosedToken => "unclosed token"
  | partialCharacter => "partial character"
  | mismatchedTag => "mismatched tag"
  | duplicateAttribute => "duplicate attribute"
  | junkAfterElement => "junk after document element"
  | parameterReference => "illegal parameter entity reference"
  | undefinedEntity => "undefined entity"
  | recursiveEntity => "recursive entity reference"
  | asynchronousEntity => "asynchronous entity"
  | badCharacterReference => "reference to invalid character number"
  | binaryEntity => "reference to binary entity"
  | externalEntityInAttribute => "reference to external entity in attribute"
  | misplacedDeclaration => "XML or text declaration not at start of entity"
  | wrongEncoding => "encoding specified in XML declaration is incorrect"
  | unclosedCdata => "unclosed CDATA section"
  | unboundPrefix => "unbound prefix"
  | undeclaredPrefix => "must not undeclare prefix"
  | badDeclaration => "XML declaration not well-formed"
  | badPublicId => "illegal character(s) in public id"
  | reservedXmlPrefix =>
    "reserved prefix (xml) must not be undeclared or bound to another namespace name"
  | reservedXmlnsPrefix => "reserved prefix (xmlns) must not be declared or undeclared"
  | reservedNamespace => "prefix must not be bound to one of the reserved namespace names"
  | skippedEntity reference => "undefined entity " ++ String.ofList (reference.take 100)

/-- A flaw and the offset it is found at. -/
structure Fault where
  flaw : Flaw
  offset : Nat
  deriving DecidableEq, Repr

/-- A place as people count: lines from one, columns from zero. -/
structure Position where
  line : Nat
  column : Nat
  deriving DecidableEq, Repr

/-- The position behind a stretch of text that begins at `here`. A carriage return ends a line and
takes a line feed behind it along. -/
def Position.after (here : Position) : Text → Position
  | [] => here
  | '\r' :: '\n' :: rest => Position.after ⟨here.line + 1, 0⟩ rest
  | c :: rest =>
    if c == '\n' || c == '\r' then Position.after ⟨here.line + 1, 0⟩ rest
    else Position.after ⟨here.line, here.column + 1⟩ rest

def positionAt (document : Text) (offset : Nat) : Position :=
  Position.after ⟨1, 0⟩ (document.take offset)

/-- The fault in words, with its place in the document. -/
def Fault.message (document : Text) (fault : Fault) : String :=
  let position := positionAt document fault.offset
  fault.flaw.message ++ ": line " ++ toString position.line ++ ", column " ++
    toString position.column

end BundleHook.Markup
