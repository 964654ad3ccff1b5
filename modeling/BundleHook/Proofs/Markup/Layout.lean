import BundleHook.Proofs.Markup.SoundTrees
import BundleHook.Proofs.Markup.Regrowth

/-!
# Laying out and reading again

What the layout of a tree leaves as it is: its names, its shape, and every text that is not blank.
The exact condition under which a node is read again as it was is that it is laid out already and
holds no carriage return.
-/

namespace BundleHook.Markup

namespace Node

variable {P : Text → Prop}

/-- What a node is by itself: a name with its attributes, or the body of a comment. -/
def bare : Node → Node
  | element name attributes _ _ _ => element name attributes [] [] []
  | comment body _ => comment body []

@[simp] theorem bare_withTail (tail : Text) (node : Node) : (node.withTail tail).bare = node.bare := by
  cases node <;> rfl

@[simp] theorem bare_withLead (lead : Text) (node : Node) : (node.withLead lead).bare = node.bare := by
  cases node <;> rfl

theorem laidOut_element (level : Nat) (name : Name) (attributes : List (Name × Text)) (lead : Text)
    (children : List Node) (tail : Text) :
    (element name attributes lead children tail).laidOut level =
      element name attributes (if children.isEmpty then lead else blankOr (lineAtLevel level) lead)
        (allLaidOut level children) tail := by
  cases children <;> rfl

@[simp] theorem bare_laidOut (level : Nat) (node : Node) : (node.laidOut level).bare = node.bare := by
  cases node with
  | element => rw [laidOut_element]; rfl
  | comment => rfl

/-- Each child is laid out a level deeper, and only its tail depends on its place. -/
theorem allLaidOut_forall₂ (level : Nat) (nodes : List Node) :
    List.Forall₂ (fun node out => ∃ line, out = (node.laidOut (level + 1)).withTail
      (blankOr (lineAtLevel line) node.tail)) nodes (allLaidOut level nodes) := by
  induction nodes with
  | nil => exact .nil
  | cons node nodes ih =>
      cases nodes with
      | nil => exact .cons ⟨level - 1, rfl⟩ .nil
      | cons next others => exact .cons ⟨level, rfl⟩ ih

theorem names_withTail (tail : Text) (node : Node) : (node.withTail tail).names = node.names := by
  cases node <;> rfl

mutual

theorem names_laidOut (level : Nat) (node : Node) : (node.laidOut level).names = node.names := by
  cases node with
  | element name attributes lead children tail =>
      rw [laidOut_element, names, names, allNames_allLaidOut]
  | comment body tail => rfl

theorem allNames_allLaidOut (level : Nat) (nodes : List Node) :
    allNames (allLaidOut level nodes) = allNames nodes := by
  match nodes with
  | [] => rfl
  | [last] => rw [allLaidOut, allNames, allNames, names_withTail, names_laidOut]; rfl
  | child :: next :: others =>
      rw [allLaidOut, allNames, allNames, names_withTail, names_laidOut, allNames_allLaidOut]
      exact fun h => by cases h

end

/-! ## Texts -/

/-- The layout keeps the texts of a kind that has all its lines. -/
theorem IsFormed.laidOut (hline : ∀ level, P (lineAtLevel level)) {node : Node}
    (h : node.IsFormed P) (level : Nat) : (node.laidOut level).IsFormed P := by
  have hblank (level : Nat) (t : Text) (ht : P t) : P (blankOr (lineAtLevel level) t) := by
    unfold blankOr
    split
    · exact hline level
    · exact ht
  induction h generalizing level with
  | @element name attributes lead tail children hname hspelled hattributes hnodup hlead hchildren
      htail ih =>
      rw [laidOut_element]
      refine .element hname hspelled hattributes hnodup ?_ (fun out hout => ?_) htail
      · split
        · exact hlead
        · exact hblank level lead hlead
      · obtain ⟨child, hchild, line, rfl⟩ :=
          exists_left_of_forall₂ (allLaidOut_forall₂ level children) hout
        exact (ih child hchild (level + 1)).withTail (hblank line _ (hchildren child hchild).tail)
  | comment hbody hlegal hreturn htail => exact .comment hbody hlegal hreturn htail

/-! ## Line ends -/

theorem unified_withTail (tail : Text) (node : Node) :
    (node.withTail tail).unified = node.unified.withTail (Text.unifyLines tail) := by
  cases node <;> rfl

theorem IsFormed.bare_unified {node : Node} (h : node.IsFormed P) : node.unified.bare = node.bare := by
  cases h with
  | element => rfl
  | comment _ _ hreturn _ =>
      rw [unified, bare, bare, unifyLines_of_notMem hreturn]

theorem withTail_eq_iff {node other : Node} {tail : Text} :
    node.withTail tail = other ↔ node.withTail [] = other.withTail [] ∧ tail = other.tail := by
  cases node <;> cases other <;> (simp [withTail, Node.tail]; try tauto)

theorem withTail_withTail (node : Node) (tail tail' : Text) :
    (node.withTail tail).withTail tail' = node.withTail tail' := by
  cases node <;> rfl

end Node

theorem unifyLines_eq_self_iff {t : Text} : Text.unifyLines t = t ↔ '\r' ∉ t :=
  ⟨fun h => h ▸ return_notMem_unifyLines t, unifyLines_of_notMem⟩

theorem return_notMem_lineAtLevel (level : Nat) : '\r' ∉ lineAtLevel level := by
  simp [lineAtLevel, List.mem_replicate]

/-- Laid out on a line and read again, the text is as it was: either it is that line already, or it
has more than blanks in it and no carriage return. -/
def IsKept (line t : Text) : Prop := if Text.isBlankText t then t = line else '\r' ∉ t

theorem unifyLines_blankOr_iff {line t : Text} (hline : '\r' ∉ line) :
    Text.unifyLines (blankOr line t) = t ↔ IsKept line t := by
  unfold blankOr IsKept
  split
  · rw [unifyLines_of_notMem hline]
    exact eq_comm
  · exact unifyLines_eq_self_iff

namespace Node

variable {P : Text → Prop}

mutual

/-- The inside of a node whose children stand at `level` is laid out already, and holds no carriage
return. -/
def IsSteady (level : Nat) : Node → Prop
  | element _ _ lead children _ =>
    (if children.isEmpty then '\r' ∉ lead else IsKept (lineAtLevel level) lead) ∧
      AllSteady level children
  | comment _ _ => True

def AllSteady (level : Nat) : List Node → Prop
  | [] => True
  | [last] => last.IsSteady (level + 1) ∧ IsKept (lineAtLevel (level - 1)) last.tail
  | child :: others =>
    child.IsSteady (level + 1) ∧ IsKept (lineAtLevel level) child.tail ∧ AllSteady level others

end

mutual

/-- A node keeps its inside exactly when it is steady. -/
theorem unified_laidOut_iff {node : Node} (h : node.IsFormed P) (level : Nat) :
    (node.laidOut level).unified.withTail [] = node.withTail [] ↔ node.IsSteady level := by
  cases node with
  | element name attributes lead children tail =>
      have hchildren : ∀ child ∈ children, child.IsFormed P := by
        cases h with
        | element _ _ _ _ _ hchildren _ => exact hchildren
      have hlead : Text.unifyLines
          (if children.isEmpty then lead else blankOr (lineAtLevel level) lead) = lead ↔
            if children.isEmpty then '\r' ∉ lead else IsKept (lineAtLevel level) lead := by
        split
        · exact unifyLines_eq_self_iff
        · exact unifyLines_blankOr_iff (return_notMem_lineAtLevel level)
      rw [laidOut_element, unified, withTail, withTail, IsSteady, element.injEq, hlead,
        allUnified_allLaidOut_iff hchildren level]
      tauto
  | comment body tail =>
      cases h with
      | comment _ _ hreturn _ =>
      simp [laidOut, unified, withTail, IsSteady, unifyLines_of_notMem hreturn]

theorem allUnified_allLaidOut_iff {nodes : List Node} (h : ∀ node ∈ nodes, node.IsFormed P)
    (level : Nat) : allUnified (allLaidOut level nodes) = nodes ↔ AllSteady level nodes := by
  match nodes, h with
  | [], _ => exact ⟨fun _ => trivial, fun _ => rfl⟩
  | [last], h =>
      have hlast := unified_laidOut_iff (h last (by simp)) (level + 1)
      rw [allLaidOut, allUnified, allUnified, AllSteady, List.cons.injEq, unified_withTail,
        withTail_eq_iff, hlast, unifyLines_blankOr_iff (return_notMem_lineAtLevel _)]
      tauto
  | child :: next :: others, h =>
      have hchild := unified_laidOut_iff (h child (by simp)) (level + 1)
      have hothers := allUnified_allLaidOut_iff
        (fun node hnode => h node (List.mem_cons_of_mem child hnode)) level
      rw [allLaidOut, allUnified, AllSteady, List.cons.injEq, unified_withTail, withTail_eq_iff,
        hchild, unifyLines_blankOr_iff (return_notMem_lineAtLevel _), hothers, and_assoc]
      all_goals exact fun h => by cases h

end

end Node

end BundleHook.Markup
