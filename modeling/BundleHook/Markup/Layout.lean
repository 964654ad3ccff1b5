import BundleHook.Markup.Node

/-!
# Laying out a tree

Each child of an element stands on a line of its own, two spaces deeper than its parent. Only blank
text is changed for it.
-/

namespace BundleHook.Markup

def lineAtLevel (level : Nat) : Text := '\n' :: List.replicate (2 * level) ' '

/-- The text, or `line` when there is nothing but blanks. -/
def blankOr (line t : Text) : Text := if Text.isBlankText t then line else t

namespace Node

mutual

/-- The node with its descendants on lines of their own; its own children stand at `level`. -/
def laidOut (level : Nat) : Node → Node
  | element name attributes lead children tail =>
    match children with
    | [] => element name attributes lead [] tail
    | child :: others =>
      element name attributes (blankOr (lineAtLevel level) lead)
        (allLaidOut level (child :: others)) tail
  | comment body tail => comment body tail

/-- Children at `level`; the text behind the last one leads back to the parent. -/
def allLaidOut (level : Nat) : List Node → List Node
  | [] => []
  | [last] => [(last.laidOut (level + 1)).withTail (blankOr (lineAtLevel (level - 1)) last.tail)]
  | child :: others =>
    (child.laidOut (level + 1)).withTail (blankOr (lineAtLevel level) child.tail) ::
      allLaidOut level others

end

/-- The root with its descendants on lines of their own. -/
def indented (root : Node) : Node := root.laidOut 1

end Node

end BundleHook.Markup
