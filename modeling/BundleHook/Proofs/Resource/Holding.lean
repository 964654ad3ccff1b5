import BundleHook.Proofs.Resource.Upserting

/-!
# What strings hold

What a reader gets from a string is all the text inside of it. Setting a string changes only the
text before its first child, and that text alone decides whether there is anything to set. So a
string holds its value afterwards exactly when it has no other content.

* `Holds`: a string holds a value, and nothing else;
* `holds_laidOut_iff`: when a string with a new text holds it in the table that is read again;
* `upsert_holds_iff`: when all strings that are set hold their values.
-/

namespace BundleHook.Markup.Node

def isComment : Node → Bool
  | element .. => false
  | comment .. => true

@[simp] theorem isComment_withTail (tail : Text) (node : Node) :
    (node.withTail tail).isComment = node.isComment := by
  cases node <;> rfl

@[simp] theorem isComment_unified (node : Node) : node.unified.isComment = node.isComment := by
  cases node <;> rfl

@[simp] theorem isComment_laidOut (level : Nat) (node : Node) :
    (node.laidOut level).isComment = node.isComment := by
  cases node with
  | element => rw [laidOut_element]; rfl
  | comment => rfl

/-- The layout leaves comments and elements what they are. -/
theorem all_isComment_laidOut (level : Nat) (nodes : List Node) :
    (allUnified (allLaidOut level nodes)).all isComment = nodes.all isComment := by
  have hout := allLaidOut_forall₂ level nodes
  rw [allUnified_eq, List.all_map]
  generalize allLaidOut level nodes = outs at hout ⊢
  induction hout with
  | nil => rfl
  | @cons node out nodes outs hnode _ ih =>
      obtain ⟨line, rfl⟩ := hnode
      rw [List.all_cons, List.all_cons, ih]
      simp

/-! ## Text behind children -/

/-- All the text behind the children, in order. -/
def tails (children : List Node) : Text := (children.map tail).flatten

theorem tail_unified (node : Node) : node.unified.tail = Text.unifyLines node.tail := by
  cases node <;> rfl

/-- Whatever the layout puts behind a child is read again, with its line ends unified. -/
theorem exists_mem_tails {level : Nat} {nodes : List Node} {child : Node} (h : child ∈ nodes) :
    ∃ line, ∀ c ∈ blankOr (lineAtLevel line) child.tail,
      (if c = '\r' then '\n' else c) ∈ tails (allUnified (allLaidOut level nodes)) := by
  obtain ⟨out, hout, line, rfl⟩ := exists_left_of_forall₂ (allLaidOut_forall₂ level nodes).flip h
  refine ⟨line, fun c hc => ?_⟩
  have htail : ((child.laidOut (level + 1)).withTail
      (blankOr (lineAtLevel line) child.tail)).unified.tail =
        Text.unifyLines (blankOr (lineAtLevel line) child.tail) := by
    rw [tail_unified, tail_withTail]
  rw [tails, allUnified_eq, List.map_map, List.mem_flatten]
  refine ⟨_, List.mem_map_of_mem hout, ?_⟩
  rw [Function.comp, htail]
  exact mem_unifyLines_of_mem hc

theorem unifyLines_lineAtLevel (level : Nat) :
    Text.unifyLines (lineAtLevel level) = lineAtLevel level :=
  unifyLines_of_notMem (return_notMem_lineAtLevel level)

/-- Behind children without text stand the line ends of the layout alone. -/
theorem tails_laidOut (level : Nat) {nodes : List Node} (hne : nodes ≠ [])
    (hblank : ∀ node ∈ nodes, Text.isBlankText node.tail = true) :
    tails (allUnified (allLaidOut level nodes)) =
      (List.replicate (nodes.length - 1) (lineAtLevel level)).flatten ++
        lineAtLevel (level - 1) := by
  have htail (line : Nat) {node : Node} (h : Text.isBlankText node.tail = true) :
      ((node.laidOut (level + 1)).withTail (blankOr (lineAtLevel line) node.tail)).unified.tail =
        lineAtLevel line := by
    rw [tail_unified, tail_withTail, blankOr, if_pos h, unifyLines_lineAtLevel]
  induction nodes with
  | nil => exact absurd rfl hne
  | cons child others ih =>
      obtain ⟨hchild, hothers⟩ := List.forall_mem_cons.1 hblank
      cases others with
      | nil => simpa [tails, allUnified_eq, allLaidOut] using htail (level - 1) hchild
      | cons next others =>
          have hrest := ih (List.cons_ne_nil next others) hothers
          rw [tails, allUnified_eq, List.map_map] at hrest ⊢
          rw [allLaidOut, List.map_cons, List.flatten_cons, hrest]
          · simp [htail level hchild, List.replicate_succ]
          · exact List.cons_ne_nil next others

theorem blankOr_ne_nil (level : Nat) (t : Text) : blankOr (lineAtLevel level) t ≠ [] := by
  unfold blankOr
  split
  · exact List.cons_ne_nil _ _
  · next hnot =>
    rintro rfl
    exact hnot rfl

/-- The layout puts some text behind every child. -/
theorem tails_laidOut_ne_nil (level : Nat) {nodes : List Node} (hne : nodes ≠ []) :
    tails (allUnified (allLaidOut level nodes)) ≠ [] := by
  obtain ⟨child, hchild⟩ := List.exists_mem_of_ne_nil nodes hne
  obtain ⟨line, hmem⟩ := @exists_mem_tails level nodes child hchild
  obtain ⟨c, hc⟩ := List.exists_mem_of_ne_nil _ (blankOr_ne_nil line child.tail)
  exact List.ne_nil_of_mem (hmem c hc)

/-- The layout keeps the text behind a child. -/
theorem isBlankText_of_tails_laidOut {level : Nat} {nodes : List Node}
    (h : ∀ c ∈ tails (allUnified (allLaidOut level nodes)), Text.isBlank c = true) {child : Node}
    (hchild : child ∈ nodes) : Text.isBlankText child.tail = true := by
  obtain ⟨line, hmem⟩ := @exists_mem_tails level nodes child hchild
  refine Decidable.byContradiction fun hnot => ?_
  obtain ⟨c, hc, hnotBlank⟩ := List.all_eq_false.1 (Bool.eq_false_iff.2 hnot)
  rw [blankOr, if_neg hnot] at hmem
  have hne : c ≠ '\r' := by
    rintro rfl
    exact hnotBlank (by decide)
  have hin := h _ (hmem c hc)
  rw [if_neg hne] at hin
  exact hnotBlank hin

end BundleHook.Markup.Node

namespace BundleHook.StringTable

open Markup

/-! ## Values that are held -/

/-- The string has no elements inside, and its text without the comments is the value. -/
structure Holds (value : Text) (node : Node) : Prop where
  comments : node.children.all Node.isComment = true
  text : valueOf node ++ Node.tails node.children = value

/-- The last string of every name holds its value. -/
def HoldsAll (items : Items) (root : Node) : Prop :=
  ∀ item ∈ items, ∃ node, last? root.children item.1 = some node ∧ Holds item.2 node

/-- The line ends that the layout puts around comments in a string. -/
def padding (count : Nat) : Text := (List.replicate count (lineAtLevel 2)).flatten ++ lineAtLevel 1

/-- The string holds the value once its text is set to it and it is laid out: it has no children, or
it has comments alone, without text, and the value is the line ends around them. -/
def TakesValue (value : Text) (node : Node) : Prop :=
  node.children = [] ∨
    value = padding node.children.length ∧ node.children.all Node.isComment = true ∧
      ∀ child ∈ node.children, Text.isBlankText child.tail = true

theorem isBlankText_lineAtLevel (level : Nat) : Text.isBlankText (lineAtLevel level) = true := by
  refine List.all_eq_true.2 fun c hc => ?_
  rcases List.mem_cons.1 hc with rfl | hc
  · decide
  · rw [List.eq_of_mem_replicate hc]
    decide

theorem isBlankText_padding (count : Nat) : Text.isBlankText (padding count) = true := by
  have hline (level : Nat) := List.all_eq_true.1 (isBlankText_lineAtLevel level)
  refine List.all_eq_true.2 fun c hc => ?_
  rcases List.mem_append.1 hc with hc | hc
  · obtain ⟨part, hpart, hc⟩ := List.mem_flatten.1 hc
    rw [List.eq_of_mem_replicate hpart] at hc
    exact hline 2 c hc
  · exact hline 1 c hc

theorem holds_withTail (value tail : Text) (node : Node) :
    Holds value (node.withTail tail) ↔ Holds value node := by
  cases node <;> exact ⟨fun h => ⟨h.1, h.2⟩, fun h => ⟨h.1, h.2⟩⟩

theorem padding_length {children : List Node} (hne : children ≠ []) :
    lineAtLevel 2 ++ ((List.replicate (children.length - 1) (lineAtLevel 2)).flatten ++
      lineAtLevel 1) = padding children.length := by
  obtain ⟨count, hcount⟩ := Nat.exists_eq_succ_of_ne_zero (mt List.length_eq_zero_iff.1 hne)
  rw [hcount, padding, List.replicate_succ, List.flatten_cons, List.append_assoc]
  rfl

/-- When the text before children and the texts behind them are the former alone, laid out. -/
theorem append_tails_eq_iff {value : Text} (hreturn : '\r' ∉ value) {children : List Node}
    (hne : children ≠ []) :
    Text.unifyLines (blankOr (lineAtLevel 2) value) ++
        Node.tails (Node.allUnified (Node.allLaidOut 2 children)) = value ↔
      value = padding children.length ∧
        ∀ child ∈ children, Text.isBlankText child.tail = true := by
  cases hblank : Text.isBlankText value with
  | false =>
      rw [blankOr, hblank, if_neg Bool.false_ne_true, unifyLines_of_notMem hreturn]
      refine iff_of_false (fun h => ?_) ?_
      · exact Node.tails_laidOut_ne_nil 2 hne (List.append_right_eq_self.1 h)
      · rintro ⟨h, -⟩
        rw [h, isBlankText_padding] at hblank
        cases hblank
  | true =>
      rw [blankOr, if_pos hblank, Node.unifyLines_lineAtLevel]
      by_cases htails : ∀ child ∈ children, Text.isBlankText child.tail = true
      · rw [Node.tails_laidOut 2 hne htails, padding_length hne]
        exact ⟨fun h => ⟨h.symm, htails⟩, fun h => h.1.symm⟩
      · -- Otherwise the text behind a child would be a part of the value.
        refine iff_of_false (fun h => htails fun child hchild => ?_) fun h => htails h.2
        exact Node.isBlankText_of_tails_laidOut
          (fun c hc => List.all_eq_true.1 hblank c (h ▸ List.mem_append_right _ hc)) hchild

/-- When a string with a new text holds it in the table that is read again. -/
theorem holds_laidOut_iff {value : Text} (hreturn : '\r' ∉ value) {key : Text} {node : Node}
    (hnode : isStringNamed key node = true) (hvalue : valueOf node = value) :
    Holds value (node.laidOut 2).unified ↔ TakesValue value node := by
  cases node with
  | comment => cases hnode
  | element name attributes lead children tail =>
  obtain rfl : lead = value := hvalue
  by_cases hnone : children = []
  · subst hnone
    refine iff_of_true ⟨rfl, ?_⟩ (.inl rfl)
    exact (List.append_nil _).trans (unifyLines_of_notMem hreturn)
  have hholds : Holds lead ((Node.element name attributes lead children tail).laidOut 2).unified ↔
      children.all Node.isComment = true ∧
        Text.unifyLines (blankOr (lineAtLevel 2) lead) ++
          Node.tails (Node.allUnified (Node.allLaidOut 2 children)) = lead := by
    rw [Node.laidOut_element, if_neg (by simpa using hnone), Node.unified,
      ← Node.all_isComment_laidOut 2 children]
    exact ⟨fun h => ⟨h.1, h.2⟩, fun h => ⟨h.1, h.2⟩⟩
  rw [hholds, append_tails_eq_iff hreturn hnone]
  constructor
  · rintro ⟨hcomments, htext, htails⟩
    exact .inr ⟨htext, hcomments, htails⟩
  · rintro (h | ⟨htext, hcomments, htails⟩)
    · exact absurd h hnone
    · exact ⟨hcomments, htext, htails⟩

/-! ## Upserting -/

theorem holds_stringSet {children : List Node} {key value : Text} (hreturn : '\r' ∉ value)
    {out : Node} (h : IsReread 1 (stringSet children key value) out) :
    Holds value out ↔ ∀ node, last? children key = some node → TakesValue value node := by
  rw [← holds_withTail value [], h.inside, holds_withTail]
  unfold stringSet
  cases hlast : last? children key with
  | none =>
      have hnew : isStringNamed key (newString key value) = true := by simp
      refine iff_of_true ((holds_laidOut_iff hreturn hnew rfl).2 (.inl rfl)) fun node hnode => ?_
      cases hnode
  | some node =>
      have hnode := isStringNamed_of_last? hlast
      rw [Option.map_some, Option.getD_some, holds_laidOut_iff hreturn
        ((isStringNamed_withLead key value node).trans hnode) (valueOf_withLead hnode)]
      have hchildren : (node.withLead value).children = node.children := by cases node <;> rfl
      rw [TakesValue, hchildren]
      exact ⟨fun h other hother => Option.some.inj hother ▸ h, fun h => h node rfl⟩

/-- The strings that are set hold their values in the table that is read again exactly when those
that were there take them. -/
theorem holdsAll_reread_iff {items : Items} (hkeys : (items.map (·.1)).Nodup)
    (hreturn : ∀ item ∈ items, '\r' ∉ item.2) {root : Node} (h : IsTable root) :
    HoldsAll items (setAll items root).indented.unified ↔
      ∀ item ∈ items, ∀ node, last? root.children item.1 = some node → TakesValue item.2 node := by
  obtain ⟨hsound, ⟨name, attributes, lead, children, rfl⟩, -⟩ := h
  have hformed := isFormed_setAll_true hsound items
  rw [setAll_element] at hformed ⊢
  cases hformed with
  | element _ _ _ _ _ hchildren _ =>
  rw [Node.indented, Node.laidOut_element, Node.unified]
  have hreread := forall₂_isReread (P := fun _ => True) (fun _ => trivial) 1 hchildren
  refine forall₂_congr fun item hitem => ?_
  obtain ⟨out, hout, hstring⟩ := find?_of_forall₂ (List.forall₂_reverse_iff.2 hreread)
    (fun _ _ hreread => hreread.isStringNamed item.1) (last?_setEach hkeys children item hitem)
  refine Iff.trans ?_ (holds_stringSet (hreturn item hitem) hstring)
  constructor
  · rintro ⟨node, hnode, hholds⟩
    obtain rfl : out = node := Option.some.inj (hout.symm.trans hnode)
    exact hholds
  · exact fun hholds => ⟨out, hout, hholds⟩

/-- A string that has its value already holds it exactly when nothing but comments is inside of it,
and no text behind them. -/
theorem holdsAll_iff_of_hasAll {items : Items} {root : Node} (hall : hasAll root items = true) :
    HoldsAll items root ↔ ∀ item ∈ items, ∀ node, last? root.children item.1 = some node →
      node.children.all Node.isComment = true ∧ Node.tails node.children = [] := by
  refine forall₂_congr fun item hitem => ?_
  have hvalue : find? root.children item.1 = some item.2 :=
    of_decide_eq_true (List.all_eq_true.1 hall item hitem)
  rw [find?_eq_map_last?] at hvalue
  obtain ⟨node, hnode, hlead⟩ := Option.map_eq_some_iff.1 hvalue
  constructor
  · rintro ⟨found, hfound, hcomments, htext⟩ other hother
    obtain rfl := Option.some.inj (hnode.symm.trans hfound)
    obtain rfl := Option.some.inj (hnode.symm.trans hother)
    exact ⟨hcomments, List.append_right_eq_self.1 (htext.trans hlead.symm)⟩
  · intro h
    obtain ⟨hcomments, htails⟩ := h node hnode
    exact ⟨node, hnode, hcomments, by rw [htails, List.append_nil, hlead]⟩

/-- The last strings of all names hold their values, and nothing else, exactly in these cases. When
the text is its own result, nothing but comments is inside of these strings, and no text behind the
comments. When it is written, the local part of every name begins as a name does, and the last
string of every name, if there is one, has no children, or it has comments without text, and its
value is the line ends that the layout puts around them. -/
theorem upsert_holds_iff {t out : Text} {items : Items} {root : Node} (hread : read t = .ok root)
    (hupsert : upsert t items = .ok out) (hkeys : (items.map (·.1)).Nodup)
    (hitems : ∀ item ∈ items, IsLegal item.1 ∧ IsLegal item.2 ∧ '\r' ∉ item.2) :
    (∃ root', read out = .ok root' ∧ HoldsAll items root') ↔
      if Text.isBlankText t = false ∧ hasAll root items = true then
        ∀ item ∈ items, ∀ node, last? root.children item.1 = some node →
          node.children.all Node.isComment = true ∧ Node.tails node.children = []
      else
        root.IsSpelled ∧ ∀ item ∈ items, ∀ node, last? root.children item.1 = some node →
          TakesValue item.2 node := by
  have htable := isTable_of_read hread
  split
  · next hkept =>
    obtain rfl : t = out :=
      Except.ok.inj ((upsert_of_hasAll hread hkept.1 hkept.2).symm.trans hupsert)
    rw [← holdsAll_iff_of_hasAll hkept.2]
    constructor
    · rintro ⟨root', hread', hholds⟩
      obtain rfl := Except.ok.inj (hread.symm.trans hread')
      exact hholds
    · exact fun hholds => ⟨root, hread, hholds⟩
  · next hwritten =>
    have hout : out = write t (setAll items root) := by
      rw [upsert, hread, ok_bind] at hupsert
      split at hupsert
      · next hkept =>
        simp only [Bool.and_eq_true, Bool.not_eq_true'] at hkept
        exact absurd hkept hwritten
      · exact (Except.ok.inj hupsert).symm
    have hsound : (setAll items root).indented.IsSound :=
      (isFormed_setAll (P := IsLegal) (fun _ hc => absurd hc List.not_mem_nil)
        (fun item hitem => ⟨(hitems item hitem).1, (hitems item hitem).2.1⟩)
        htable.sound).laidOut isLegal_lineAtLevel 1
    have hvalues := holdsAll_reread_iff hkeys (fun item hitem => (hitems item hitem).2.2) htable
    subst hout
    rw [← hvalues]
    constructor
    · rintro ⟨root', hread', hholds⟩
      obtain ⟨hspelled, rfl⟩ := (read_write_setAll_iff htable hsound).1 hread'
      exact ⟨hspelled, hholds⟩
    · rintro ⟨hspelled, hholds⟩
      exact ⟨_, (read_write_setAll_iff htable hsound).2 ⟨hspelled, rfl⟩, hholds⟩

theorem upsert_holds_smallTable :
    ∃ root', read smallResult = .ok root' ∧ HoldsAll smallItems root' := by
  have hkeys : (smallItems.map (·.1)).Nodup := by decide
  have hitems : ∀ item ∈ smallItems, IsLegal item.1 ∧ IsLegal item.2 ∧ '\r' ∉ item.2 := by decide
  have hwritten : ¬(Text.isBlankText smallTable = false ∧ hasAll smallRoot smallItems = true) := by
    decide
  have hspelled : smallRoot.IsSpelled := by decide
  refine (upsert_holds_iff read_smallTable upsert_smallTable hkeys hitems).2 ?_
  rw [if_neg hwritten]
  refine ⟨hspelled, List.forall_mem_cons.2 ⟨fun node hnode => ?_,
    List.forall_mem_singleton.2 fun node hnode => ?_⟩⟩
  · obtain rfl := Option.some.inj hnode
    exact .inl rfl
  · cases hnode

/-- A table with a string whose text is a value, and markup behind it. -/
def markedTable : Text := "<resources><string name=\"k\">v<b>x</b></string></resources>".toList

def markedString : Node :=
  .element stringName [(keyName, ['k'])] ['v'] [.element (.plain "b") [] ['x'] [] []] []

/-- The table is its own result, and the string still holds more than its value. -/
theorem upsert_keeps_markedTable :
    upsert markedTable [(['k'], ['v'])] = .ok markedTable ∧
      ¬∃ root', read markedTable = .ok root' ∧ HoldsAll [(['k'], ['v'])] root' := by
  have hread : read markedTable = .ok (.element rootName [] [] [markedString] []) := rfl
  refine ⟨by decide, ?_⟩
  rintro ⟨root', hread', hholds⟩
  obtain rfl := Except.ok.inj (hread.symm.trans hread')
  obtain ⟨node, hnode, hcomments, -⟩ := hholds _ List.mem_cons_self
  obtain rfl := Option.some.inj hnode
  cases hcomments

end BundleHook.StringTable
