import BundleHook.Code.Delimiter

/-!
# Extents of expressions and declarations

An expression ends with its line, or earlier at a stop character, except that what stands between
delimiters belongs to it as a whole. A declaration reaches from its signature through its block, or
through the single expression behind its equals sign.
-/

namespace BundleHook.Code

open Text

/-- The first offset at or after `index` that is not blank. -/
def skipBlanks (t : Text) (index : Nat) : Nat :=
  index + ((t.drop index).takeWhile isBlank).length

/-- Scans an expression from the offset `index`; the next `skip` characters are already known to
belong to it. -/
def expressionFrom (stops : Text) : (index skip : Nat) → Text → Nat
  | index, _, [] => index
  | index, skip + 1, _ :: rest => expressionFrom stops (index + 1) skip rest
  | index, 0, c :: rest =>
    if opensLineComment (c :: rest) then index
    else match literalLength (c :: rest) with
      | length + 1 => expressionFrom stops (index + 1) length rest
      | 0 =>
        if (closerOf c).isSome then
          match closeOfHead 0 (c :: rest) with
          | some length => expressionFrom stops (index + 1) length rest
          | none => index + (rest.length + 1)
        else if c = '\n' || stops.contains c then index
        else expressionFrom stops (index + 1) 0 rest

/-- Where the expression that starts at `start` ends: at a line comment, a line feed or one of
`stops` outside all delimiters. A delimiter without a match takes the rest of the text. -/
def expressionStop (t : Text) (start : Nat) (stops : Text) : Nat :=
  expressionFrom stops (min start t.length) 0 (t.drop start)

/-- Where the declaration ends whose signature ends at `signatureEnd`: behind its block or its
expression; `none` when neither follows or the block never closes. -/
def declarationStop (t : Text) (signatureEnd : Nat) : Option Nat :=
  let body := skipBlanks t signatureEnd
  match t.drop body with
  | '{' :: _ => (matchingCloser t body).map (· + 1)
  | '=' :: _ =>
    let value := skipBlanks t (body + 1)
    let stop := expressionStop t value []
    if value < stop then some stop else none
  | _ => none

end BundleHook.Code
