import BundleHook.Text.Lines

/-!
# Splicing blocks into code

A block of code is written at the left margin. To place it into a text every line of it that is not
empty gets the indentation of the place, and the block is set off by line feeds.
-/

namespace BundleHook.Code

open Text

/-- A part of a text: the offsets of its first character and behind its last. -/
structure Span where
  start : Nat
  stop : Nat
  deriving DecidableEq, Repr

def indentStep : Text := [' ', ' ']

/-- The indentation of members between the delimiters at `openIndex` and `closeIndex`: that of the
first line with content behind the opening line when it is deeper than the opening line's, else one
level more than the opening line's. -/
def memberIndent (t : Text) (openIndex closeIndex : Nat) : Text :=
  let base := indentOfLine t openIndex
  let members := (lines (slice t (openIndex + 1) closeIndex)).drop 1
  match members.find? fun line => !isBlankText line with
  | some line =>
    let indent := line.takeWhile isIndent
    if base.length < indent.length then indent else base ++ indentStep
  | none => base ++ indentStep

/-- One line of a block behind `indent`; an empty line stays empty. -/
def indentLine (indent line : Text) : Text := if line.isEmpty then line else indent ++ line

/-- Every line of `block` behind `indent`. -/
def indented (block indent : Text) : Text :=
  join ['\n'] ((splitOn '\n' block).map (indentLine indent))

/-- Every line of `block` but the first behind `indent`. -/
def indentRest (block indent : Text) : Text :=
  match splitOn '\n' block with
  | first :: others => join ['\n'] (first :: others.map (indentLine indent))
  | [] => []

/-- Puts `block` in the place of `span`, its later lines indented as the line the span starts on. -/
def replaceSpan (t : Text) (span : Span) (block : Text) : Text :=
  t.take span.start ++ indentRest block (indentOfLine t span.start) ++ t.drop span.stop

/-- Puts `block` as a paragraph of its own before the line holding `index`; when other text stands
before `index` on that line, the line is broken there. -/
def placeBefore (t : Text) (index : Nat) (block : Text) : Text :=
  let indent := indentOfLine t index
  let start := startOfLine t index
  if opensLine t index then
    t.take start ++ indented block indent ++ ['\n', '\n'] ++ t.drop start
  else
    t.take index ++ ['\n'] ++ indented block indent ++ ['\n'] ++ indent ++ t.drop index

/-- Puts `block` as the last member before the delimiter at `closeIndex`. -/
def placeBeforeCloser (t : Text) (closeIndex : Nat) (block indent : Text) : Text :=
  let place := if opensLine t closeIndex then startOfLine t closeIndex else closeIndex
  t.take place ++ ['\n'] ++ indented block indent ++ ['\n'] ++ t.drop place

/-- Puts `block` behind the line holding `index`, with an empty line between. -/
def placeBehindLine (t : Text) (index : Nat) (block indent : Text) : Text :=
  let rest := t.drop index
  match rest.dropWhile (· != '\n') with
  | [] => t ++ ['\n', '\n'] ++ indented block indent ++ ['\n']
  | _ :: after =>
    t.take (t.length - after.length) ++ ['\n'] ++ indented block indent ++ ['\n'] ++ after

end BundleHook.Code
