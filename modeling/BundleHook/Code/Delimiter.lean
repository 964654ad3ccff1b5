import BundleHook.Code.Literal

/-!
# Matching delimiters

A delimiter is closed by the first place at which as many closers as openers of its kind have been
passed, counting only code: literals and comments are stepped over as a whole.
-/

namespace BundleHook.Code

/-- The delimiter that closes `opener`. -/
def closerOf : Char → Option Char
  | '{' => some '}'
  | '(' => some ')'
  | '[' => some ']'
  | _ => none

/-- Looks for the closer that balances `depth` openers. `index` is the offset of the text's head,
and the next `skip` characters belong to a literal. -/
def closeFrom (opener closer : Char) : (index skip depth : Nat) → Text → Option Nat
  | _, _, _, [] => none
  | index, skip + 1, depth, _ :: rest => closeFrom opener closer (index + 1) skip depth rest
  | index, 0, depth, c :: rest =>
    match literalLength (c :: rest) with
    | length + 1 => closeFrom opener closer (index + 1) length depth rest
    | 0 =>
      if c = opener then closeFrom opener closer (index + 1) 0 (depth + 1) rest
      else if c = closer then
        if depth ≤ 1 then some index else closeFrom opener closer (index + 1) 0 (depth - 1) rest
      else closeFrom opener closer (index + 1) 0 depth rest

/-- The offset of the delimiter that closes the one at the head of a text whose head has the offset
`index`; `none` when the head opens nothing or is never closed. -/
def closeOfHead (index : Nat) (t : Text) : Option Nat := do
  let opener ← t.head?
  let closer ← closerOf opener
  closeFrom opener closer index 0 0 t

/-- The offset of the delimiter that closes the one at `index`. -/
def matchingCloser (t : Text) (index : Nat) : Option Nat := closeOfHead index (t.drop index)

/-- As `matchingCloser`, where an offset before the text is no place of it. -/
def matchingCloserAt (t : Text) (index : Int) : Option Nat :=
  if index < 0 then none else matchingCloser t index.toNat

end BundleHook.Code
