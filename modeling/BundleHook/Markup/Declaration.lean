import BundleHook.Markup.Fault

/-!
# The declaration of a document

A document may open by declaring its version, its encoding and whether it stands alone, in this
order, each as a word with a quoted value.
-/

namespace BundleHook.Markup

/-- What a document declares about itself. -/
structure DocumentDeclaration where
  /-- The name of the encoding and its offset. -/
  encoding : Option (Text × Nat)
  isStandalone : Bool
  deriving DecidableEq, Repr

/-- A stretch of text at an offset. -/
structure Stretch where
  index : Nat
  rest : Text

namespace Stretch

/-- The stretch behind the characters of a class at its head. -/
def drop (s : Stretch) (accepts : Char → Bool) : Stretch :=
  let taken := s.rest.takeWhile accepts
  ⟨s.index + taken.length, s.rest.drop taken.length⟩

def tail (s : Stretch) : Stretch := ⟨s.index + 1, s.rest.drop 1⟩

end Stretch

/-- A word with its value, and the offsets of both. -/
structure DeclaredValue where
  word : Text
  wordIndex : Nat
  value : Text
  valueIndex : Nat

def isDeclaredValueChar (c : Char) : Bool :=
  c.isAlphanum || c == '.' || c == '-' || c == '_'

/-- Reads the next word with its value, if any; the error is the offset of what is wrong. -/
def declaredValue? (s : Stretch) : Except Nat (Option DeclaredValue × Stretch) :=
  match s.rest with
  | [] => .ok (none, s)
  | c :: _ =>
    if !isSpace c then .error s.index
    else
      let opened := s.drop isSpace
      if opened.rest.isEmpty then .ok (none, opened)
      else
        let isWordChar (c : Char) : Bool := c != '=' && !isSpace c && c.toNat < 0x80
        let word := opened.rest.takeWhile isWordChar
        let sign := (opened.drop isWordChar).drop isSpace
        if sign.rest.head? ≠ some '=' || word.isEmpty then .error sign.index
        else
          let quoted := sign.tail.drop isSpace
          match quoted.rest with
          | [] => .error quoted.index
          | quote :: _ =>
            if quote ≠ '"' && quote ≠ '\x27' then .error quoted.index
            else
              let value := quoted.tail.rest.takeWhile isDeclaredValueChar
              let close := quoted.tail.drop isDeclaredValueChar
              if close.rest.head? ≠ some quote then .error close.index
              else .ok (some ⟨word, opened.index, value, quoted.index + 1⟩, close.tail)

/-- Reads whether the document stands alone, behind all other values. -/
def standaloneOf (encoding : Option (Text × Nat)) (d : DeclaredValue) (behind : Stretch) :
    Except Nat DocumentDeclaration :=
  if d.word ≠ "standalone".toList then .error d.wordIndex
  else if d.value ≠ "yes".toList && d.value ≠ "no".toList then .error d.valueIndex
  else
    let stop := behind.drop isSpace
    if stop.rest.isEmpty then .ok ⟨encoding, d.value = "yes".toList⟩ else .error stop.index

def encodingOf (d : DeclaredValue) (behind : Stretch) : Except Nat DocumentDeclaration :=
  if d.word = "encoding".toList then
    if d.value.head?.any Char.isAlpha then do
      let encoding := some (d.value, d.valueIndex)
      match ← declaredValue? behind with
      | (some next, stop) => standaloneOf encoding next stop
      | (none, _) => .ok ⟨encoding, false⟩
    else .error d.valueIndex
  else standaloneOf none d behind

/-- Reads the declaration from the text behind its opening word; the error is the offset of what is
wrong. -/
def DocumentDeclaration.read (index : Nat) (body : Text) : Except Nat DocumentDeclaration := do
  match ← declaredValue? ⟨index, body⟩ with
  | (none, stop) => .error stop.index
  | (some version, behind) =>
    if version.word ≠ "version".toList then .error version.wordIndex
    else
      match ← declaredValue? behind with
      | (none, _) => .ok ⟨none, false⟩
      | (some next, stop) => encodingOf next stop

end BundleHook.Markup
