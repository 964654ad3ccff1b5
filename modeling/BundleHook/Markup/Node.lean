import BundleHook.Markup.Event

/-!
# Documents as trees

The root element of a document as a tree. The text before the first child of an element is its lead;
the text behind a child is the child's tail. Comments inside the root are kept, everything outside
the root is not part of the tree.
-/

namespace BundleHook.Markup

/-- An element or a comment, with the text behind it. -/
inductive Node where
  | element (name : Name) (attributes : List (Name × Text)) (lead : Text) (children : List Node)
      (tail : Text)
  | comment (body tail : Text)
  deriving Repr

namespace Node

def tail : Node → Text
  | element _ _ _ _ tail => tail
  | comment _ tail => tail

def withTail (tail : Text) : Node → Node
  | element name attributes lead children _ => element name attributes lead children tail
  | comment body _ => comment body tail

/-- The node with another text before its first child. -/
def withLead (lead : Text) : Node → Node
  | element name attributes _ children tail => element name attributes lead children tail
  | comment body tail => comment body tail

/-- The name of an element; a comment has the empty name. -/
def name : Node → Name
  | element name _ _ _ _ => name
  | comment _ _ => ⟨[], []⟩

def children : Node → List Node
  | element _ _ _ children _ => children
  | comment _ _ => []

@[simp] theorem tail_withTail (tail : Text) (node : Node) : (node.withTail tail).tail = tail := by
  cases node <;> rfl

@[simp] theorem withTail_tail (node : Node) : node.withTail node.tail = node := by
  cases node <;> rfl

end Node

/-! ## Reading -/

/-- An element whose end has not been read: its children, latest first, and the text behind the
latest of them, or before the first one, latest character first. -/
structure OpenNode where
  name : Name
  attributes : List (Name × Text)
  lead : Text
  children : List Node
  pending : Text

/-- The element with its pending text in its place. -/
def OpenNode.settle (n : OpenNode) : OpenNode :=
  match n.children with
  | [] => { n with lead := n.lead ++ n.pending.reverse, pending := [] }
  | last :: others =>
    { n with children := last.withTail (last.tail ++ n.pending.reverse) :: others, pending := [] }

def OpenNode.addChild (n : OpenNode) (child : Node) : OpenNode :=
  let n := n.settle
  { n with children := child :: n.children }

def OpenNode.close (n : OpenNode) : Node :=
  let n := n.settle
  .element n.name n.attributes n.lead n.children.reverse []

/-- The elements that are open, innermost first, or the root once it is closed. -/
structure Growth where
  opened : List OpenNode
  root : Option Node

def Growth.initial : Growth := ⟨[], none⟩

def Growth.take (g : Growth) (event : Event) : Growth :=
  match event, g.opened with
  | .opened name attributes, opened => { g with opened := ⟨name, attributes, [], [], []⟩ :: opened }
  | .closed, [n] => ⟨[], some n.close⟩
  | .closed, n :: outer :: others => { g with opened := outer.addChild n.close :: others }
  | .char c, n :: others => { g with opened := { n with pending := c :: n.pending } :: others }
  | .comment body, n :: others => { g with opened := n.addChild (.comment body []) :: others }
  | _, _ => g

/-- The fault of a reference whose text is not in the document, at the first such reference. -/
def Events.skippedFault? (events : Events) : Option Fault :=
  events.list.findSome? fun (offset, event) =>
    match event with
    | .skipped name => some ⟨.skippedEntity ('&' :: name ++ [';']), offset⟩
    | _ => none

def Node.ofDocument (document : Text) : Except Fault Node :=
  let events := Events.ofDocument true true (withoutMarks document)
  match events.skippedFault?.or events.fault with
  | some fault => .error fault
  | none =>
    match (events.list.foldl (fun g (_, event) => g.take event) Growth.initial).root with
    | some root => .ok root
    | none => .error ⟨.noElement, document.length⟩

/-- The offsets of events do not count for the growth. -/
theorem foldl_take (list : List (Nat × Event)) (g : Growth) :
    list.foldl (fun g (_, event) => g.take event) g = (list.map (·.2)).foldl Growth.take g := by
  rw [List.foldl_map]

end BundleHook.Markup
