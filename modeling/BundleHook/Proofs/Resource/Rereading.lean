import BundleHook.Proofs.Markup.Legality
import BundleHook.Proofs.Resource.Setting

/-!
# String tables that are written and read again

A table is read again as it was laid out, with its line ends unified, exactly when the local part of
every name begins as a name does.
-/

namespace BundleHook.StringTable

open Markup

theorem isLegal_lineAtLevel (level : Nat) : IsLegal (lineAtLevel level) := by
  intro c hc
  rcases List.mem_cons.1 hc with rfl | hc
  · decide
  · rw [List.eq_of_mem_replicate hc]
    decide

/-! ## Reading -/

theorem read_of_not_isBlankText {t : Text} (h : Text.isBlankText t = false) {root : Node} :
    read t = .ok root ↔ Node.ofDocument t = .ok root ∧ root.name = rootName := by
  rw [read, h, if_neg Bool.false_ne_true]
  split
  · next fault hfault => simp [hfault]
  · next found hfound =>
    rw [hfound]
    split
    · next hname =>
      simp only [Except.ok.injEq]
      exact ⟨fun h => ⟨h, h ▸ hname⟩, And.left⟩
    · next hname =>
      simp only [reduceCtorEq, Except.ok.injEq, false_iff, not_and]
      rintro rfl
      exact hname

/-- The root of a table. -/
structure IsTable (root : Node) : Prop where
  sound : root.IsSound
  isRoot : root.IsRoot
  name : root.name = rootName

theorem isTable_emptyRoot : IsTable emptyRoot := by
  have hnone {α : Type} {p : α → Prop} : ∀ x ∈ ([] : List α), p x :=
    fun _ hmem => absurd hmem List.not_mem_nil
  have hname : rootName.IsSound := isSound_of_plain (p := "resources".toList) (by decide)
  exact ⟨.element hname (by decide) hnone List.nodup_nil hnone hnone hnone,
    ⟨rootName, [], [], [], rfl⟩, rfl⟩

theorem isTable_of_read {t : Text} {root : Node} (h : read t = .ok root) : IsTable root := by
  cases hblank : Text.isBlankText t with
  | true =>
      rw [read, hblank] at h
      obtain rfl := Except.ok.inj h
      exact isTable_emptyRoot
  | false =>
      obtain ⟨hread, hname⟩ := (read_of_not_isBlankText hblank).1 h
      obtain ⟨hsound, hroot⟩ := Node.isSound_of_ofDocument hread
      exact ⟨hsound, hroot, hname⟩

/-! ## Writing -/

theorem isRoot_indented {root : Node} (h : root.IsRoot) : root.indented.IsRoot := by
  obtain ⟨name, attributes, lead, children, rfl⟩ := h
  exact ⟨name, attributes, _, _, Node.laidOut_element ..⟩

theorem name_unified_indented (root : Node) : root.indented.unified.name = root.name := by
  cases root with
  | element => rw [Node.indented, Node.laidOut_element]; rfl
  | comment => rfl

theorem mem_render {root : Node} (h : root.IsRoot) : '<' ∈ root.render := by
  obtain ⟨name, attributes, lead, children, rfl⟩ := h
  rw [Node.render_eq, Node.write_element]
  split <;> simp

theorem isBlankText_write (t : Text) {root : Node} (h : root.IsRoot) :
    Text.isBlankText (write t root) = false := by
  refine List.all_eq_false.2 ⟨'<', ?_, by decide⟩
  exact List.mem_append_left _ (List.mem_append_right _ (mem_render (isRoot_indented h)))

section Write

variable {t : Text} {root : Node} (hsound : root.indented.IsSound) (hroot : root.IsRoot)

include hroot

theorem isLegal_of_read_write {root' : Node} (h : read (write t root) = .ok root') :
    IsLegal (write t root) :=
  Node.isLegal_of_ofDocument ((read_of_not_isBlankText (isBlankText_write t hroot)).1 h).1

include hsound

/-- A table is read again as it was laid out, with its line ends unified, exactly when its names are
spelled out. -/
theorem read_write_iff (hname : root.name = rootName) {root' : Node} :
    read (write t root) = .ok root' ↔ root.IsSpelled ∧ root' = root.indented.unified := by
  rw [read_of_not_isBlankText (isBlankText_write t hroot)]
  have hspelled : root.indented.IsSpelled ↔ root.IsSpelled := by
    rw [Node.IsSpelled, Node.IsSpelled, Node.indented, Node.names_laidOut]
  have hhead : (if t.trimStart.startsWith "<?xml".toList then declaration else []) = [] ∨
      (if t.trimStart.startsWith "<?xml".toList then declaration else []) = declaration := by
    split
    · exact .inr rfl
    · exact .inl rfl
  rw [write]
  by_cases h : root.IsSpelled
  · rw [Node.ofDocument_render hhead hsound (isRoot_indented hroot) (hspelled.2 h),
      Except.ok.injEq]
    constructor
    · rintro ⟨rfl, -⟩
      exact ⟨h, rfl⟩
    · rintro ⟨-, rfl⟩
      exact ⟨rfl, (name_unified_indented root).trans hname⟩
  · obtain ⟨fault, hfault⟩ := Node.ofDocument_render_of_not_isSpelled hhead hsound
      (isRoot_indented hroot) (mt hspelled.1 h)
    simp only [hfault, h, reduceCtorEq, false_and]

end Write

/-! ## Children that are read again -/

/-- What a child is read as, once it is laid out at a level and written. -/
structure IsReread (level : Nat) (node out : Node) : Prop where
  bare : out.bare = node.bare
  inside : out.withTail [] = (node.laidOut (level + 1)).unified.withTail []

theorem IsReread.isStringNamed {level : Nat} {node out : Node} (h : IsReread level node out)
    (key : Text) : StringTable.isStringNamed key node = StringTable.isStringNamed key out :=
  (isStringNamed_of_bare h.bare).symm

theorem valueOf_withTail (tail : Text) (node : Node) : valueOf (node.withTail tail) = valueOf node := by
  cases node <;> rfl

/-- A value that is not blank and holds no carriage return is read again. -/
theorem IsReread.valueOf {level : Nat} {node out : Node} (h : IsReread level node out)
    (hblank : Text.isBlankText (valueOf node) = false) (hreturn : '\r' ∉ StringTable.valueOf node) :
    StringTable.valueOf out = StringTable.valueOf node := by
  rw [← valueOf_withTail [] out, h.inside, valueOf_withTail]
  cases node with
  | element name attributes lead children tail =>
      simp only [StringTable.valueOf] at hblank hreturn ⊢
      rw [Node.laidOut_element, Node.unified]
      simp only [blankOr, hblank, Bool.false_eq_true, if_false, ite_self]
      exact unifyLines_of_notMem hreturn
  | comment body tail => simp [StringTable.valueOf, Text.isBlankText] at hblank

theorem forall₂_isReread {P : Text → Prop} (hline : ∀ level, P (lineAtLevel level)) (level : Nat)
    {nodes : List Node} (h : ∀ node ∈ nodes, node.IsFormed P) :
    List.Forall₂ (IsReread level) nodes (Node.allUnified (Node.allLaidOut level nodes)) := by
  rw [Node.allUnified_eq, List.forall₂_map_right_iff]
  have hout := Node.allLaidOut_forall₂ level nodes
  generalize Node.allLaidOut level nodes = outs at hout ⊢
  induction hout with
  | nil => exact .nil
  | @cons node out nodes outs hnode _ ih =>
      obtain ⟨line, rfl⟩ := hnode
      refine .cons ⟨?_, ?_⟩ (ih fun other hother => h other (List.mem_cons_of_mem node hother))
      · have hformed := (h node List.mem_cons_self).laidOut hline (level + 1)
        rw [Node.unified_withTail, Node.bare_withTail, hformed.bare_unified, Node.bare_laidOut]
      · rw [Node.unified_withTail, Node.withTail_withTail]

theorem map_bare_of_forall₂ {level : Nat} {nodes out : List Node}
    (h : List.Forall₂ (IsReread level) nodes out) : out.map Node.bare = nodes.map Node.bare := by
  induction h with
  | nil => rfl
  | cons hnode _ ih => rw [List.map_cons, List.map_cons, hnode.bare, ih]

/-- A value that is not blank and holds no carriage return is found again. -/
theorem find?_of_isReread {level : Nat} {nodes out : List Node}
    (h : List.Forall₂ (IsReread level) nodes out) {key value : Text}
    (hfind : find? nodes key = some value) (hblank : Text.isBlankText value = false)
    (hreturn : '\r' ∉ value) : find? out key = some value := by
  obtain ⟨node, hnode, rfl⟩ := Option.map_eq_some_iff.1 hfind
  obtain ⟨found, hfound, hreread⟩ := find?_of_forall₂ (List.forall₂_reverse_iff.2 h)
    (fun _ _ hreread => hreread.isStringNamed key) hnode
  rw [find?, hfound, Option.map_some, hreread.valueOf hblank hreturn]

end BundleHook.StringTable
