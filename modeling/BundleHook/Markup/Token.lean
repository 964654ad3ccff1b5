import BundleHook.Markup.Fault

/-!
# Tokens of a document

A document is a sequence of tokens: first those of the declarations before the root element, then
tags, characters, references and comments, then what may follow the root.
-/

namespace BundleHook.Markup

/-- A reference, by name or by number. -/
inductive Reference where
  | entity (name : Text)
  | character (code : Nat)
  deriving DecidableEq, Repr

/-- A part of an attribute value. Every blank counts as a space. -/
inductive Piece where
  | plain (c : Char)
  | space
  | reference (reference : Reference)
  deriving DecidableEq, Repr

/-- An attribute as it is written: its name, the offset of its name, and the parts of its value with
their offsets. -/
structure RawAttribute where
  name : Text
  index : Nat
  value : List (Nat × Piece)
  deriving DecidableEq, Repr

/-- What a word in a declaration looks like. -/
inductive WordKind where
  | name
  /-- A name with one colon inside. -/
  | prefixed
  /-- Characters of names in another order. -/
  | token
  deriving DecidableEq, Repr

/-- A unit of a document. -/
inductive Token where
  /-- A start tag, or an empty element; `stop` is the offset behind it. -/
  | startTag (name : Text) (attributes : List RawAttribute) (isEmpty : Bool) (stop : Nat)
  | endTag (name : Text)
  /-- A character of the content, with line ends made line feeds. -/
  | char (c : Char)
  | reference (reference : Reference)
  | comment (body : Text)
  | instruction
  /-- The document's declaration of itself, without its brackets and first word. -/
  | declaration (body : Text)
  | rootStart
  | space
  /-- The opening of a markup declaration with its keyword. -/
  | declOpen (keyword : Text)
  | declClose
  /-- A quoted text in a declaration, without its quotes. -/
  | literal (body : Text)
  | word (kind : WordKind) (word : Text)
  | markedWord (word : Text)
  | comma
  | bar
  | bracketOpen
  | bracketClose
  | sectionOpen
  | sectionClose
  | parenOpen
  | parenClose (mark : Option Char)
  | percent
  | parameter (name : Text)
  | keyword (word : Text)
  deriving DecidableEq, Repr

/-! ## References -/

/-- Characters that begin a name; where names have no prefixes a colon does. -/
def beginsName (namespaces : Bool) (c : Char) : Bool := isNameStart c || (!namespaces && c == ':')

/-- Characters that continue a name; where names have no prefixes a colon does. -/
def continuesName (namespaces : Bool) (c : Char) : Bool :=
  isNameMore c || (!namespaces && c == ':')

/-- How far a reference has been read; names and numbers are built from their ends. -/
inductive ReferenceMode where
  | opened
  | name (word : Text)
  | number
  | decimal (code : Nat)
  | hexOpened
  | hex (code : Nat)
  deriving DecidableEq, Repr

/-- What the next character does to a reference. -/
inductive ReferenceStep where
  | more (mode : ReferenceMode)
  | done (reference : Reference)
  | refused
  deriving DecidableEq, Repr

def hexDigit? (c : Char) : Option Nat :=
  if c.isDigit then some (c.toNat - '0'.toNat)
  else if 'a' ≤ c && c ≤ 'f' then some (c.toNat - 'a'.toNat + 10)
  else if 'A' ≤ c && c ≤ 'F' then some (c.toNat - 'A'.toNat + 10)
  else none

def ReferenceMode.step (namespaces : Bool) (c : Char) : ReferenceMode → ReferenceStep
  | opened =>
    if beginsName namespaces c then .more (.name [c])
    else if c = '#' then .more .number
    else .refused
  | name word =>
    if continuesName namespaces c then .more (.name (c :: word))
    else if c = ';' then .done (.entity word.reverse)
    else .refused
  | number =>
    if c = 'x' then .more .hexOpened
    else if c.isDigit then .more (.decimal (c.toNat - '0'.toNat))
    else .refused
  | decimal code =>
    if c.isDigit then .more (.decimal (code * 10 + (c.toNat - '0'.toNat)))
    else if c = ';' then .done (.character code)
    else .refused
  | hexOpened =>
    match hexDigit? c with
    | some digit => .more (.hex digit)
    | none => .refused
  | hex code =>
    match hexDigit? c with
    | some digit => .more (.hex (code * 16 + digit))
    | none => if c = ';' then .done (.character code) else .refused

/-- The character a number refers to, when a document may hold it. -/
def referredChar? (code : Nat) : Option Char :=
  if code < 0x110000 && !(0xD800 ≤ code && code < 0xE000) then
    let c := Char.ofNat code
    if isForbidden c then none else some c
  else none

/-- The character one of the five predefined entities stands for. -/
def predefinedEntity? (name : Text) : Option Char :=
  if name = "lt".toList then some '<'
  else if name = "gt".toList then some '>'
  else if name = "amp".toList then some '&'
  else if name = "quot".toList then some '"'
  else if name = "apos".toList then some '\x27'
  else none

end BundleHook.Markup
