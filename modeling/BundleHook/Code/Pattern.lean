import BundleHook.Code.Splice
import BundleHook.Text.Word

/-!
# Patterns of source text

The anchors and hooks in an entry file are recognised by the order of their words, with free blanks
between. A `Pattern` is such a shape. `Pattern.run` tries the stretches of text that have it in
order of preference: a choice prefers its first branch, a repetition as many turns as it can take,
and a short gap as little text as it can.
-/

namespace BundleHook.Code

open Text

/-- A place in a text: its offset, the character before it and the text from it on. -/
structure Place where
  index : Nat
  before : Option Char
  rest : Text

/-- A shape of source text. -/
inductive Pattern where
  | nothing
  | one (accepts : Char → Bool)
  /-- Any number of characters of a class, eagerly. -/
  | many (accepts : Char → Bool)
  | edge
  /-- The place behind a line feed, or the start of the text. -/
  | lineStart
  /-- The place before a line feed, or the end of the text. -/
  | lineEnd
  /-- As little text as possible, none of whose characters begins `stop`. -/
  | short (stop : Text)
  /-- One pattern, then the other. -/
  | both (first second : Pattern)
  /-- One of two patterns, the first one preferred. -/
  | either (first second : Pattern)
  /-- As many turns of a pattern as possible, each of which takes some text. -/
  | turns (body : Pattern)

namespace Place

def step (p : Place) (c : Char) (rest : Text) : Place := ⟨p.index + 1, some c, rest⟩

def isEdge (p : Place) : Bool := p.before.any isWord != p.rest.head?.any isWord

def isLineStart (p : Place) : Bool := p.before.all (· == '\n')

def isLineEnd (p : Place) : Bool := p.rest.head?.all (· == '\n')

end Place

namespace Pattern

/-- Takes characters of a class from the place on, then goes on with `next`; when that fails it
gives back one character after the other. -/
def runMany {α : Type} (accepts : Char → Bool) (next : Place → Option α) :
    (index : Nat) → (before : Option Char) → Text → Option α
  | index, before, [] => next ⟨index, before, []⟩
  | index, before, c :: rest =>
    if accepts c then
      match runMany accepts next (index + 1) (some c) rest with
      | some found => some found
      | none => next ⟨index, before, c :: rest⟩
    else next ⟨index, before, c :: rest⟩

/-- Goes on with `next` at the first place where that succeeds, passing no place where `stop`
begins. -/
def runShort {α : Type} (stop : Text) (next : Place → Option α) :
    (index : Nat) → (before : Option Char) → Text → Option α
  | index, before, [] => next ⟨index, before, []⟩
  | index, before, c :: rest =>
    match next ⟨index, before, c :: rest⟩ with
    | some found => some found
    | none =>
      if stop.isPrefixOf (c :: rest) then none
      else runShort stop next (index + 1) (some c) rest

/-- Takes turns of `body`, at most one for each character of `budget`, then goes on with `next`. -/
def runTurns {α : Type} (body : (Place → Option α) → Place → Option α)
    (next : Place → Option α) : (budget : Text) → Place → Option α
  | [], p => next p
  | _ :: budget, p =>
    match body (fun q => if p.index < q.index then runTurns body next budget q else none) p with
    | some found => some found
    | none => next p

/-- Tries the stretches of the pattern from a place on in order of preference, and answers with the
first answer `next` gives at the end of one. -/
def run {α : Type} : Pattern → (next : Place → Option α) → Place → Option α
  | nothing, next, p => next p
  | one accepts, next, p =>
    match p.rest with
    | c :: rest => if accepts c then next (p.step c rest) else none
    | [] => none
  | many accepts, next, p => runMany accepts next p.index p.before p.rest
  | edge, next, p => if p.isEdge then next p else none
  | lineStart, next, p => if p.isLineStart then next p else none
  | lineEnd, next, p => if p.isLineEnd then next p else none
  | short stop, next, p => runShort stop next p.index p.before p.rest
  | both first second, next, p => first.run (second.run next) p
  | either first second, next, p =>
    match first.run next p with
    | some found => some found
    | none => second.run next p
  | turns body, next, p => runTurns body.run next p.rest p

/-- Where the preferred stretch of the pattern from a place on ends. -/
def endAt (pattern : Pattern) (p : Place) : Option Nat := pattern.run (fun q => some q.index) p

/-- The first stretch of the pattern that starts at the place or behind it. -/
def searchFrom (pattern : Pattern) : (index : Nat) → (before : Option Char) → Text → Option Span
  | index, before, [] => (pattern.endAt ⟨index, before, []⟩).map fun stop => ⟨index, stop⟩
  | index, before, c :: rest =>
    match pattern.endAt ⟨index, before, c :: rest⟩ with
    | some stop => some ⟨index, stop⟩
    | none => pattern.searchFrom (index + 1) (some c) rest

def search (pattern : Pattern) (t : Text) : Option Span := pattern.searchFrom 0 none t

/-- The first stretch of the pattern that starts at `start` or behind it. -/
def searchAfter (pattern : Pattern) (t : Text) (start : Nat) : Option Span :=
  pattern.searchFrom start (t.take start).getLast? (t.drop start)

def occursIn (pattern : Pattern) (t : Text) : Bool := (pattern.search t).isSome

/-- The stretches of the pattern from a place on, each the first one behind its predecessor; the
next `skip` characters belong to the last one. -/
def stretchesFrom (pattern : Pattern) :
    (index skip : Nat) → (before : Option Char) → Text → List Span
  | _, _, _, [] => []
  | index, skip + 1, _, c :: rest => pattern.stretchesFrom (index + 1) skip (some c) rest
  | index, 0, before, c :: rest =>
    match pattern.endAt ⟨index, before, c :: rest⟩ with
    | some stop =>
      ⟨index, stop⟩ :: pattern.stretchesFrom (index + 1) (stop - index - 1) (some c) rest
    | none => pattern.stretchesFrom (index + 1) 0 (some c) rest

/-- All stretches of a pattern that takes some text, in order and without overlap. -/
def stretches (pattern : Pattern) (t : Text) : List Span := pattern.stretchesFrom 0 0 none t

/-! ## Building patterns -/

instance : Append Pattern := ⟨both⟩

def text (word : Text) : Pattern := word.foldr (fun c after => one (· == c) ++ after) nothing

def word (w : String) : Pattern := text w.toList

/-- A pattern or nothing, the pattern preferred. -/
def maybe (pattern : Pattern) : Pattern := either pattern nothing

/-- One of several words, earlier ones preferred. -/
def oneOf : List String → Pattern
  | [] => one fun _ => false
  | [w] => word w
  | w :: others => either (word w) (oneOf others)

/-- Blanks, if any. -/
def blanks : Pattern := many isBlank

def gap : Pattern := one isBlank ++ blanks

/-- Spaces and tabs, if any. -/
def indent : Pattern := many isIndent

def indentGap : Pattern := one isIndent ++ indent

def name : Pattern := one isWord ++ many isWord

end Pattern

end BundleHook.Code
