import BundleHook.Markup.Token

/-!
# Scanning a document

The scanner reads a document character by character. Its mode says what it is inside of; a step
either moves on, adding tokens, or finds a fault. A scan is thus a fold over the text.
-/

namespace BundleHook.Markup

/-- The part of a document that is being read. -/
inductive Zone where
  | prolog
  | content
  | epilog
  deriving DecidableEq, Repr

/-- Whether a name has had its colon. -/
inductive Colon where
  | none
  /-- The colon is the last character read. -/
  | fresh
  | past
  deriving DecidableEq, Repr

/-- A start tag that is being read, its attributes latest first. -/
structure OpenTag where
  name : Text
  attributes : List RawAttribute
  deriving DecidableEq, Repr

/-- An attribute that is being read, its pieces latest first. -/
structure OpenAttribute where
  tag : OpenTag
  name : Text
  index : Nat
  quote : Char
  pieces : List (Nat × Piece)
  deriving DecidableEq, Repr

/-- What the scanner is inside of. Words under construction are kept latest character first. -/
inductive Mode where
  /-- At the very start, where a byte order mark may stand. -/
  | start
  -- content
  | text
  | textReturn
  | textBracket (two : Bool)
  | textReference (mode : ReferenceMode)
  | markup
  | bang
  | bangDash
  | comment (body : Text)
  | commentDash (body : Text)
  | commentDashes (body : Text)
  | cdataOpen (read : Text)
  | cdata
  | cdataReturn
  | cdataBracket (two : Bool)
  | instructionOpen
  | instructionTarget (target : Text)
  | instructionBody (target body : Text)
  | instructionMark (target body : Text)
  | instructionBare (target : Text)
  | endOpen
  | endName (name : Text)
  | endSpace (name : Text)
  | tagName (name : Text) (colon : Colon)
  | tagSpace (tag : OpenTag)
  | tagSlash (tag : OpenTag)
  | attributeName (tag : OpenTag) (index : Nat) (name : Text) (colon : Colon)
  | attributeSpace (tag : OpenTag) (index : Nat) (name : Text)
  | attributeEquals (tag : OpenTag) (index : Nat) (name : Text)
  | value (attr : OpenAttribute) (afterReturn : Bool)
  | valueReference (attr : OpenAttribute) (index : Nat) (mode : ReferenceMode)
  | valueEnd (tag : OpenTag)
  -- declarations
  | between
  | declMarkup
  | declBang
  | declKeyword (word : Text)
  | declPercent (word : Text)
  | literal (quote : Char) (body : Text)
  | literalEnd (body : Text)
  | percent
  | parameter (name : Text)
  | pound
  | keyword (word : Text)
  | word (kind : WordKind) (word : Text)
  | wordColon (word : Text)
  | bracket
  | brackets
  | paren
  deriving DecidableEq, Repr

/-- The state of a scan: `first` is the offset of the current token, `index` that of the next
character, `depth` counts the elements that are open, and the tokens come latest first. -/
structure Lexer where
  namespaces : Bool
  zone : Zone
  mode : Mode
  first : Nat
  index : Nat
  depth : Nat
  tokens : List (Nat × Token)

/-- A step of the scanner. -/
abbrev Step := Except Fault Lexer

namespace Lexer

/-- Takes the next character and goes to `mode`. -/
def go (s : Lexer) (mode : Mode) : Step := .ok { s with mode, index := s.index + 1 }

/-- Takes the next character as the first one of a token. -/
def opens (s : Lexer) (mode : Mode) : Step :=
  .ok { s with mode, first := s.index, index := s.index + 1 }

/-- Adds a token that ends before the next character. -/
def add (s : Lexer) (token : Token) : Lexer :=
  { s with tokens := (s.first, token) :: s.tokens }

/-- Adds a token that ends with the next character, and goes to `mode`. -/
def emit (s : Lexer) (token : Token) (mode : Mode) : Step := (s.add token).go mode

/-- Adds a token that is the next character, and goes to `mode`. -/
def single (s : Lexer) (token : Token) (mode : Mode) : Step :=
  { s with first := s.index }.emit token mode

def refuse (s : Lexer) (c : Char) : Step :=
  if c = cutOff then .error ⟨.partialCharacter, s.first⟩ else .error ⟨.invalidToken, s.index⟩

def neutral (s : Lexer) : Mode := if s.zone = .content then .text else .between

/-! ## Content -/

def inText (s : Lexer) (c : Char) : Step :=
  let s := { s with first := s.index }
  if c = '<' then s.opens .markup
  else if c = '&' then s.opens (.textReference .opened)
  else if c = '\r' then s.emit (.char '\n') .textReturn
  else if c = ']' then s.emit (.char c) (.textBracket false)
  else if isForbidden c then s.refuse c
  else s.emit (.char c) .text

def inCdata (s : Lexer) (c : Char) : Step :=
  let s := { s with first := s.index }
  if c = ']' then s.opens (.cdataBracket false)
  else if c = '\r' then s.emit (.char '\n') .cdataReturn
  else if isForbidden c then s.refuse c
  else s.emit (.char c) .cdata

def closeTag (s : Lexer) (tag : OpenTag) (isEmpty : Bool) : Step :=
  let token := Token.startTag tag.name tag.attributes.reverse isEmpty (s.index + 1)
  if isEmpty then
    if s.depth = 0 then { s with zone := .epilog }.emit token .between else s.emit token .text
  else { s with depth := s.depth + 1 }.emit token .text

def closeElement (s : Lexer) (name : Text) : Step :=
  let token := Token.endTag name
  if s.depth ≤ 1 then { s with zone := .epilog, depth := 0 }.emit token .between
  else { s with depth := s.depth - 1 }.emit token .text

def inMarkup (s : Lexer) (c : Char) : Step :=
  if beginsName s.namespaces c then s.go (.tagName [c] .none)
  else if c = '!' then s.go .bang
  else if c = '?' then s.go .instructionOpen
  else if c = '/' then s.go .endOpen
  else s.refuse c

/-- A character behind the name of a tag or behind a blank in it. -/
def inTagSpace (s : Lexer) (tag : OpenTag) (c : Char) : Step :=
  if isSpace c then s.go (.tagSpace tag)
  else if c = '>' then s.closeTag tag false
  else if c = '/' then s.go (.tagSlash tag)
  else if beginsName s.namespaces c then s.go (.attributeName tag s.index [c] .none)
  else s.refuse c

def inTagName (s : Lexer) (name : Text) (colon : Colon) (c : Char) : Step :=
  if colon = .fresh then
    if isNameStart c then s.go (.tagName (c :: name) .past) else s.refuse c
  else if continuesName s.namespaces c then s.go (.tagName (c :: name) colon)
  else if c = ':' then
    if colon = .none then s.go (.tagName (c :: name) .fresh) else s.refuse c
  else if isSpace c then s.go (.tagSpace ⟨name.reverse, []⟩)
  else if c = '>' then s.closeTag ⟨name.reverse, []⟩ false
  else if c = '/' then s.go (.tagSlash ⟨name.reverse, []⟩)
  else s.refuse c

def inAttributeName (s : Lexer) (tag : OpenTag) (index : Nat) (name : Text) (colon : Colon)
    (c : Char) : Step :=
  if colon = .fresh then
    if isNameStart c then s.go (.attributeName tag index (c :: name) .past) else s.refuse c
  else if continuesName s.namespaces c then s.go (.attributeName tag index (c :: name) colon)
  else if c = ':' then
    if colon = .none then s.go (.attributeName tag index (c :: name) .fresh) else s.refuse c
  else if c = '=' then s.go (.attributeEquals tag index name.reverse)
  else if isSpace c then s.go (.attributeSpace tag index name.reverse)
  else s.refuse c

def inValue (s : Lexer) (a : OpenAttribute) (afterReturn : Bool) (c : Char) : Step :=
  let push (piece : Piece) : OpenAttribute := { a with pieces := (s.index, piece) :: a.pieces }
  if c = a.quote then
    let attr : RawAttribute := ⟨a.name, a.index, a.pieces.reverse⟩
    s.go (.valueEnd { a.tag with attributes := attr :: a.tag.attributes })
  else if c = '&' then s.go (.valueReference a s.index .opened)
  else if c = '<' then s.refuse c
  else if isForbidden c then s.refuse c
  else if c = '\n' && afterReturn then s.go (.value a false)
  else if isSpace c then s.go (.value (push .space) (c == '\r'))
  else s.go (.value (push (.plain c)) false)

/-- Is the word, whatever its case, the reserved one? -/
def isReservedTarget (target : Text) : Bool := target.map Char.toLower == "xml".toList

def closeInstruction (s : Lexer) (target body : Text) : Step :=
  let token := if isReservedTarget target then Token.declaration body.reverse else .instruction
  s.emit token s.neutral

/-- Goes on behind the target of an instruction; the reserved word must be in lower case. -/
def afterTarget (s : Lexer) (target : Text) (c : Char) (mode : Mode) : Step :=
  if isReservedTarget target && target != "xml".toList then s.refuse c else s.go mode

/-- The bracket that opens a section without markup has to spell its keyword. -/
def inCdataOpen (s : Lexer) (read : Text) : Step :=
  if read.length < 6 then s.go (.cdataOpen read)
  else
    let wrong := (read.reverse.zip "CDATA[".toList).takeWhile fun (c, d) => c == d
    if wrong.length = 6 then s.go .cdata
    else .error ⟨.invalidToken, s.first + 3 + wrong.length⟩

/-! ## Declarations -/

/-- A character between the tokens of the declarations. -/
def inBetween (s : Lexer) (c : Char) : Step :=
  let s := { s with first := s.index }
  if c = '"' || c = '\x27' then s.opens (.literal c [])
  else if c = '<' then s.opens .declMarkup
  else if isSpace c then s.emit .space .between
  else if c = '%' then s.opens .percent
  else if c = ',' then s.emit .comma .between
  else if c = '[' then s.emit .bracketOpen .between
  else if c = ']' then s.opens .bracket
  else if c = '(' then s.emit .parenOpen .between
  else if c = ')' then s.opens .paren
  else if c = '|' then s.emit .bar .between
  else if c = '>' then s.emit .declClose .between
  else if c = '#' then s.opens .pound
  else if beginsName s.namespaces c then s.opens (.word .name [c])
  else if isNameMore c || c = ':' then s.opens (.word .token [c])
  else s.refuse c

/-- The first character of markup among the declarations. A letter opens the root element. -/
def inDeclMarkup (s : Lexer) (c : Char) : Step :=
  if c = '!' then s.go .declBang
  else if c = '?' then s.go .instructionOpen
  else if beginsName s.namespaces c || 0x80 ≤ c.toNat then
    { s.add .rootStart with zone := .content }.inMarkup c
  else s.refuse c

def endsWord (c : Char) : Bool :=
  isSpace c || c == '>' || c == ')' || c == ',' || c == '|' || c == '[' || c == '%'

def inWord (s : Lexer) (kind : WordKind) (word : Text) (c : Char) : Step :=
  if continuesName s.namespaces c then s.go (.word kind (c :: word))
  else if endsWord c then (s.add (.word kind word.reverse)).inBetween c
  else if c = ':' then
    match kind with
    | .name => s.go (.wordColon (c :: word))
    | .prefixed => s.go (.word .token (c :: word))
    | .token => s.go (.word .token (c :: word))
  else if c = '+' || c = '*' || c = '?' then
    if kind = .token then s.refuse c else s.emit (.markedWord word.reverse) .between
  else s.refuse c

def inPercent (s : Lexer) (c : Char) : Step :=
  if beginsName s.namespaces c then s.go (.parameter [c])
  else if isSpace c || c = '%' then (s.add .percent).inBetween c
  else s.refuse c

def inBracket (s : Lexer) (c : Char) : Step :=
  if c = ']' then s.go .brackets else (s.add .bracketClose).inBetween c

def isKeywordLetter (s : Lexer) (c : Char) : Bool :=
  c.isAlpha || c == '_' || (!s.namespaces && c == ':')

/-! ## The step -/

def step (s : Lexer) (c : Char) : Step :=
  match s.mode with
  | .start => if c = '\uFEFF' then s.go .between else s.inBetween c
  | .text => s.inText c
  | .textReturn => if c = '\n' then s.go .text else s.inText c
  | .textBracket two =>
    if two && c = '>' then s.refuse c
    else if c = ']' then s.single (.char c) (.textBracket true)
    else s.inText c
  | .textReference mode =>
    match mode.step s.namespaces c with
    | .more mode => s.go (.textReference mode)
    | .done reference => s.emit (.reference reference) .text
    | .refused => s.refuse c
  | .markup => s.inMarkup c
  | .bang =>
    if c = '-' then s.go .bangDash else if c = '[' then s.go (.cdataOpen []) else s.refuse c
  | .bangDash => if c = '-' then s.go (.comment []) else s.refuse c
  | .comment body =>
    if c = '-' then s.go (.commentDash body)
    else if isForbidden c then s.refuse c
    else s.go (.comment (c :: body))
  | .commentDash body =>
    if c = '-' then s.go (.commentDashes body)
    else if isForbidden c then s.refuse c
    else s.go (.comment (c :: '-' :: body))
  | .commentDashes body =>
    if c = '>' then s.emit (.comment (Text.unifyLines body.reverse)) s.neutral else s.refuse c
  | .cdataOpen read => s.inCdataOpen (c :: read)
  | .cdata => s.inCdata c
  | .cdataReturn => if c = '\n' then s.go .cdata else s.inCdata c
  | .cdataBracket false =>
    if c = ']' then s.go (.cdataBracket true) else (s.add (.char ']')).inCdata c
  | .cdataBracket true =>
    if c = '>' then s.go .text
    else if c = ']' then { s.add (.char ']') with first := s.first + 1 }.go (.cdataBracket true)
    else ((s.add (.char ']')).add (.char ']')).inCdata c
  | .instructionOpen =>
    if beginsName s.namespaces c then s.go (.instructionTarget [c]) else s.refuse c
  | .instructionTarget target =>
    if continuesName s.namespaces c then s.go (.instructionTarget (c :: target))
    else if isSpace c then
      s.afterTarget target.reverse c (.instructionBody target.reverse [c])
    else if c = '?' then s.afterTarget target.reverse c (.instructionBare target.reverse)
    else s.refuse c
  | .instructionBody target body =>
    if c = '?' then s.go (.instructionMark target body)
    else if isForbidden c then s.refuse c
    else s.go (.instructionBody target (c :: body))
  | .instructionMark target body =>
    if c = '>' then s.closeInstruction target body
    else if c = '?' then s.go (.instructionMark target ('?' :: body))
    else if isForbidden c then s.refuse c
    else s.go (.instructionBody target (c :: '?' :: body))
  | .instructionBare target =>
    if c = '>' then s.closeInstruction target [] else s.refuse c
  | .endOpen => if beginsName s.namespaces c then s.go (.endName [c]) else s.refuse c
  | .endName name =>
    if isNameMore c || c = ':' then s.go (.endName (c :: name))
    else if isSpace c then s.go (.endSpace name.reverse)
    else if c = '>' then s.closeElement name.reverse
    else s.refuse c
  | .endSpace name =>
    if isSpace c then s.go (.endSpace name)
    else if c = '>' then s.closeElement name
    else s.refuse c
  | .tagName name colon => s.inTagName name colon c
  | .tagSpace tag => s.inTagSpace tag c
  | .tagSlash tag => if c = '>' then s.closeTag tag true else s.refuse c
  | .attributeName tag index name colon => s.inAttributeName tag index name colon c
  | .attributeSpace tag index name =>
    if c = '=' then s.go (.attributeEquals tag index name)
    else if isSpace c then s.go (.attributeSpace tag index name)
    else s.refuse c
  | .attributeEquals tag index name =>
    if c = '"' || c = '\x27' then s.go (.value ⟨tag, name, index, c, []⟩ false)
    else if isSpace c then s.go (.attributeEquals tag index name)
    else s.refuse c
  | .value a afterReturn => s.inValue a afterReturn c
  | .valueReference a index mode =>
    match mode.step s.namespaces c with
    | .more mode => s.go (.valueReference a index mode)
    | .done reference =>
      s.go (.value { a with pieces := (index, .reference reference) :: a.pieces } false)
    | .refused => s.refuse c
  | .valueEnd tag =>
    if isSpace c then s.go (.tagSpace tag)
    else if c = '/' then s.go (.tagSlash tag)
    else if c = '>' then s.closeTag tag false
    else s.refuse c
  | .between => s.inBetween c
  | .declMarkup => s.inDeclMarkup c
  | .declBang =>
    if c = '-' then s.go .bangDash
    else if c = '[' then s.emit .sectionOpen .between
    else if s.isKeywordLetter c then s.go (.declKeyword [c])
    else s.refuse c
  | .declKeyword word =>
    if s.isKeywordLetter c then s.go (.declKeyword (c :: word))
    else if isSpace c then (s.add (.declOpen word.reverse)).inBetween c
    else if c = '%' then s.go (.declPercent word)
    else s.refuse c
  | .declPercent word =>
    if isSpace c || c = '%' then .error ⟨.invalidToken, s.index - 1⟩
    else { s.add (.declOpen word.reverse) with first := s.index - 1 }.inPercent c
  | .literal quote body =>
    if c = quote then s.go (.literalEnd body.reverse)
    else if isForbidden c then s.refuse c
    else s.go (.literal quote (c :: body))
  | .literalEnd body =>
    if isSpace c || c = '>' || c = '%' || c = '[' then (s.add (.literal body)).inBetween c
    else s.refuse c
  | .percent => s.inPercent c
  | .parameter name =>
    if continuesName s.namespaces c then s.go (.parameter (c :: name))
    else if c = ';' then s.emit (.parameter name.reverse) .between
    else s.refuse c
  | .pound => if beginsName s.namespaces c then s.go (.keyword [c]) else s.refuse c
  | .keyword word =>
    if continuesName s.namespaces c then s.go (.keyword (c :: word))
    else if isSpace c || c = ')' || c = '>' || c = '%' || c = '|' then
      (s.add (.keyword word.reverse)).inBetween c
    else s.refuse c
  | .word kind word => s.inWord kind word c
  | .wordColon word =>
    if isNameMore c then s.go (.word .prefixed (c :: word)) else s.inWord .token word c
  | .bracket => s.inBracket c
  | .brackets =>
    if c = '>' then s.emit .sectionClose .between
    else { s.add .bracketClose with first := s.first + 1 }.inBracket c
  | .paren =>
    if c = '*' || c = '?' || c = '+' then s.emit (.parenClose (some c)) .between
    else if isSpace c || c = '>' || c = ',' || c = '|' || c = ')' then
      (s.add (.parenClose none)).inBetween c
    else s.refuse c

end Lexer

/-! ## Whole texts -/

/-- A scan that goes on, or one that found a fault behind some tokens. -/
inductive Scan where
  | running (scanner : Lexer)
  | failed (tokens : List (Nat × Token)) (fault : Fault)

def Scan.step : Scan → Char → Scan
  | running s, c =>
    match s.step c with
    | .ok next => running next
    | .error fault => failed s.tokens fault
  | failed tokens fault, _ => failed tokens fault

/-- What a document or an entity is read as. -/
structure Tokens where
  /-- The tokens with their offsets, in order. -/
  list : List (Nat × Token)
  fault : Option Fault

def Lexer.finish (s : Lexer) : Tokens :=
  let stopped (flaw : Flaw) (offset : Nat) : Tokens := ⟨s.tokens.reverse, some ⟨flaw, offset⟩⟩
  let last (token : Token) : Tokens :=
    ⟨(s.add token).tokens.reverse,
      if s.zone = .epilog then none else some ⟨.noElement, s.index⟩⟩
  match s.mode with
  | .start => stopped .noElement s.index
  | .between =>
    if s.zone = .epilog then ⟨s.tokens.reverse, none⟩ else stopped .noElement s.index
  | .text => stopped .noElement s.index
  | .textBracket _ => stopped .noElement s.index
  | .textReturn => stopped .noElement (s.index - 1)
  | .cdata => stopped .unclosedCdata s.index
  | .cdataReturn => stopped .unclosedCdata (s.index - 1)
  | .cdataBracket _ => stopped .unclosedCdata s.first
  | .literalEnd body => last (.literal body)
  | .word kind word => last (.word kind word.reverse)
  | .keyword word => last (.keyword word.reverse)
  | _ => stopped .unclosedToken s.first

/-- The scan of an entity's text that ends here: it may end between any two tokens. -/
def Lexer.finishEntity (s : Lexer) : Tokens :=
  match s.mode with
  | .text | .textBracket _ | .textReturn | .between => ⟨s.tokens.reverse, none⟩
  | _ => s.finish

def Tokens.ofDocument (namespaces : Bool) (t : Text) : Tokens :=
  match t.foldl Scan.step (.running ⟨namespaces, .prolog, .start, 0, 0, 0, []⟩) with
  | .running s => s.finish
  | .failed tokens fault => ⟨tokens.reverse, some fault⟩

/-- The tokens of an entity that stands in the content. -/
def Tokens.ofEntity (namespaces : Bool) (t : Text) : Tokens :=
  match t.foldl Scan.step (.running ⟨namespaces, .content, .text, 0, 0, 1, []⟩) with
  | .running s => s.finishEntity
  | .failed tokens fault => ⟨tokens.reverse, some fault⟩

end BundleHook.Markup
