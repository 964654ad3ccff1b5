import BundleHook.Proofs.Resource.Rereading

/-!
# Upserting strings

A second upsert of the same strings changes nothing, and the table holds them without any other
change to its names, as long as the table can be read again at all. It can, unless the local part of
some name begins as no name does. Other children keep what is inside of them exactly when they are
laid out already.
-/

namespace BundleHook.StringTable

open Markup

/-! ## A table with all strings set -/

theorem isSound_plain_names : stringName.IsSound ∧ keyName.IsSound :=
  ⟨isSound_of_plain (p := "string".toList) (by decide),
    isSound_of_plain (p := "name".toList) (by decide)⟩

section Formed

variable {P : Text → Prop}

theorem isFormed_withLead {node : Node} (h : node.IsFormed P) {lead : Text} (hlead : P lead) :
    (node.withLead lead).IsFormed P := by
  cases h with
  | element hname hspelled hattributes hnodup _ hchildren htail =>
      exact .element hname hspelled hattributes hnodup hlead hchildren htail
  | comment hbody hlegal hreturn htail => exact .comment hbody hlegal hreturn htail

theorem isFormed_newString (hempty : P []) {key value : Text} (hkey : P key) (hvalue : P value) :
    (newString key value).IsFormed P := by
  refine .element isSound_plain_names.1 (by decide) (fun entry hentry => ?_) (by simp) hvalue
    (fun _ hmem => absurd hmem List.not_mem_nil) hempty
  obtain rfl := List.mem_singleton.1 hentry
  have hne : keyName ≠ ⟨[], "xmlns".toList⟩ := by decide
  exact ⟨isSound_plain_names.2, hne, hkey⟩

theorem isFormed_setAll (hempty : P []) {items : Items} (hitems : ∀ item ∈ items, P item.1 ∧ P item.2)
    {root : Node} (h : root.IsFormed P) : (setAll items root).IsFormed P := by
  cases h with
  | element hname hspelled hattributes hnodup hlead hchildren htail =>
      refine .element hname hspelled hattributes hnodup hlead ?_ htail
      exact forall_mem_setEach (p := fun node => node.IsFormed P)
        (fun item hitem node hnode => isFormed_withLead hnode (hitems item hitem).2)
        (fun item hitem => isFormed_newString hempty (hitems item hitem).1 (hitems item hitem).2)
        hchildren
  | comment hbody hlegal hreturn htail => exact .comment hbody hlegal hreturn htail

end Formed

theorem isFormed_setAll_true {root : Node} (h : root.IsSound) (items : Items) :
    (setAll items root).IsFormed fun _ => True :=
  isFormed_setAll trivial (fun _ _ => ⟨trivial, trivial⟩) (h.mono fun _ _ => trivial)

theorem isSpelled_setAll (items : Items) (root : Node) :
    (setAll items root).IsSpelled ↔ root.IsSpelled := by
  cases root with
  | element name attributes lead children tail =>
      rw [setAll_element]
      constructor
      · intro h other hother
        refine h other (Node.mem_names_element.2 ?_)
        refine (Node.mem_names_element.1 hother).imp_right (Or.imp_right ?_)
        rintro ⟨child, hchild, hmem⟩
        obtain ⟨out, hout, heq⟩ := List.mem_map.1 (map_subset_setEach names_withLead items children
          (List.mem_map_of_mem hchild))
        exact ⟨out, hout, heq ▸ hmem⟩
      · intro h other hother
        rcases Node.mem_names_element.1 hother with hother | hother | ⟨out, hout, hmem⟩
        · exact h other (Node.mem_names_element.2 (.inl hother))
        · exact h other (Node.mem_names_element.2 (.inr (.inl hother)))
        · refine forall_mem_setEach (p := Node.IsSpelled) (fun item _ node hnode => ?_)
            (fun item _ => ?_) (fun child hchild name hname => h name
              (Node.mem_names_element.2 (.inr (.inr ⟨child, hchild, hname⟩)))) out hout other hmem
          · rw [Node.IsSpelled, names_withLead]
            exact hnode
          · rw [Node.IsSpelled, names_newString]
            decide
  | comment body tail => rfl

/-! ## The upsert -/

section Upsert

variable {t out : Text} {items : Items} {root : Node} (hread : read t = .ok root)
  (hupsert : upsert t items = .ok out)

include hread

theorem upsert_of_hasAll (hblank : Text.isBlankText t = false) (hall : hasAll root items = true) :
    upsert t items = .ok t := by
  simp [upsert, hread, hblank, hall]

include hupsert

theorem upsert_cases : out = t ∧ hasAll root items = true ∨ out = write t (setAll items root) := by
  rw [upsert, hread, ok_bind] at hupsert
  split at hupsert
  · next hall =>
    simp only [Bool.and_eq_true] at hall
    exact .inl ⟨(Except.ok.inj hupsert).symm, hall.2⟩
  · exact .inr (Except.ok.inj hupsert).symm

end Upsert

theorem isRoot_setAll {root : Node} (h : root.IsRoot) (items : Items) :
    (setAll items root).IsRoot := by
  obtain ⟨name, attributes, lead, children, rfl⟩ := h
  exact ⟨name, attributes, lead, setEach items children, rfl⟩

theorem name_setAll (items : Items) (root : Node) : (setAll items root).name = root.name := by
  cases root <;> rfl

/-- A table with all strings set is read again as it was laid out exactly when its names are spelled
out. -/
theorem read_write_setAll_iff {t : Text} {items : Items} {root root' : Node} (h : IsTable root)
    (hsound : (setAll items root).indented.IsSound) :
    read (write t (setAll items root)) = .ok root' ↔
      root.IsSpelled ∧ root' = (setAll items root).indented.unified := by
  rw [read_write_iff hsound (isRoot_setAll h.isRoot items) ((name_setAll items root).trans h.name),
    isSpelled_setAll]

/-! ## What is read again -/

/-- The table `root'` is `root` with the strings set, whatever their layouts: the children are those
from before, by themselves, with one new string behind them for each name that none of them carries,
and the last string of every name has its value. -/
structure HasSet (items : Items) (root root' : Node) : Prop where
  bare : root'.bare = root.bare
  children : root'.children.map Node.bare = root.children.map Node.bare ++
    (newItems items root.children).map fun item => (newString item.1 item.2).bare
  values : ∀ item ∈ items, find? root'.children item.1 = some item.2

/-- Items that a table can hold and give back: names that occur once, and legal texts, those of the
values neither blank nor with a carriage return. -/
structure AreStorable (items : Items) : Prop where
  keys : (items.map (·.1)).Nodup
  legal : ∀ item ∈ items, IsLegal item.1 ∧ IsLegal item.2
  values : ∀ item ∈ items, Text.isBlankText item.2 = false ∧ '\r' ∉ item.2

theorem HasSet.refl {items : Items} {root : Node} (hall : hasAll root items = true) :
    HasSet items root root := by
  have hvalues : ∀ item ∈ items, find? root.children item.1 = some item.2 := fun item hitem =>
    of_decide_eq_true (List.all_eq_true.1 hall item hitem)
  have hnone : newItems items root.children = [] := by
    refine List.filter_eq_nil_iff.2 fun item hitem => ?_
    simp [hvalues item hitem]
  exact ⟨rfl, by simp [hnone], hvalues⟩

theorem HasSet.hasAll {items : Items} {root root' : Node} (h : HasSet items root root') :
    hasAll root' items = true :=
  List.all_eq_true.2 fun item hitem => decide_eq_true (h.values item hitem)

/-- A value that is neither blank nor has a carriage return is read again as it was set. -/
theorem find?_reread {items : Items} (hkeys : (items.map (·.1)).Nodup) {root : Node}
    (h : IsTable root) {item : Text × Text} (hitem : item ∈ items)
    (hblank : Text.isBlankText item.2 = false) (hreturn : '\r' ∉ item.2) :
    find? (setAll items root).indented.unified.children item.1 = some item.2 := by
  obtain ⟨hsound, ⟨name, attributes, lead, children, rfl⟩, -⟩ := h
  have hformed := isFormed_setAll_true hsound items
  rw [setAll_element] at hformed ⊢
  cases hformed with
  | element _ _ _ _ _ hchildren _ =>
  rw [Node.indented, Node.laidOut_element, Node.unified]
  exact find?_of_isReread (forall₂_isReread (P := fun _ => True) (fun _ => trivial) 1 hchildren)
    (find?_setEach hkeys children hitem) hblank hreturn

theorem hasSet_reread {items : Items} (hitems : AreStorable items) {root : Node} (h : IsTable root) :
    HasSet items root (setAll items root).indented.unified := by
  have hvalues (item : Text × Text) (hitem : item ∈ items) :=
    find?_reread hitems.keys h hitem (hitems.values item hitem).1 (hitems.values item hitem).2
  obtain ⟨hsound, ⟨name, attributes, lead, children, rfl⟩, -⟩ := h
  have hformed := isFormed_setAll (P := IsLegal) (fun _ hc => absurd hc List.not_mem_nil)
    hitems.legal hsound
  rw [setAll_element] at hformed hvalues ⊢
  cases hformed with
  | element _ _ _ _ _ hchildren _ =>
  rw [Node.indented, Node.laidOut_element, Node.unified] at hvalues ⊢
  refine ⟨rfl, ?_, hvalues⟩
  rw [Node.children, map_bare_of_forall₂ (forall₂_isReread isLegal_lineAtLevel 1 hchildren),
    map_setEach (fun lead node => Node.bare_withLead lead node) hitems.keys]
  rfl

/-- A table that is written as a legal text has legal texts, whatever the items hold. -/
theorem isSound_of_isLegal_write {t : Text} {items : Items} {root : Node} (h : IsTable root)
    (hlegal : IsLegal (write t (setAll items root))) : (setAll items root).indented.IsSound := by
  have hformed := (isFormed_setAll_true h.sound items).laidOut (fun _ => trivial) 1
  rw [write] at hlegal
  have hrender := (isLegal_of_isLegal_append (isLegal_of_isLegal_append hlegal).1).2
  rw [Node.render, Declarations.writeAll_eq] at hrender
  exact hformed.isSound_of_write hrender

/-! ## Stability -/

/-- Every child that no item is for is in its place with everything inside of it. -/
def KeepsUnset (items : Items) (root root' : Node) : Prop :=
  ∀ index node, root.children[index]? = some node → IsUnset items root.children index →
    ∃ node', root'.children[index]? = some node' ∧ node'.withTail [] = node.withTail []

/-- Every child that no item is for is laid out already, and holds no carriage return. -/
def AreSteady (items : Items) (root : Node) : Prop :=
  ∀ index node, root.children[index]? = some node → IsUnset items root.children index →
    node.IsSteady 2

theorem keepsUnset_reread_iff (items : Items) {root : Node} (h : IsTable root) :
    KeepsUnset items root (setAll items root).indented.unified ↔ AreSteady items root := by
  obtain ⟨hsound, ⟨name, attributes, lead, children, rfl⟩, -⟩ := h
  have hformed := isFormed_setAll_true hsound items
  rw [setAll_element] at hformed ⊢
  have hchildren : ∀ node ∈ setEach items children, node.IsFormed fun _ => True := by
    cases hformed with
    | element _ _ _ _ _ hchildren _ => exact hchildren
  have hreread := forall₂_isReread (P := fun _ => True) (fun _ => trivial) 1 hchildren
  have hiff (index : Nat) (node : Node) (hnode : children[index]? = some node)
      (hunset : IsUnset items children index) :
      (∃ out, (Node.allUnified (Node.allLaidOut 1 (setEach items children)))[index]? = some out ∧
        out.withTail [] = node.withTail []) ↔ node.IsSteady 2 := by
    have hsame := getElem?_setEach hnode hunset
    obtain ⟨out, hout, hinside⟩ := getElem?_of_forall₂ hreread hsame
    rw [← Node.unified_laidOut_iff (hchildren node (List.mem_of_getElem? hsame)), ← hinside.inside]
    simp [hout]
  rw [Node.indented, Node.laidOut_element, Node.unified]
  exact forall₄_congr hiff

section Main

variable {t out : Text} {items : Items} {root : Node} (hread : read t = .ok root)
  (hupsert : upsert t items = .ok out)

include hread hupsert

/-- The result of an upsert is a table with all strings set, and is its own result, exactly when it
is the text itself or the local part of every name begins as a name does. -/
theorem upsert_settles_iff (hitems : AreStorable items) :
    (∃ root', read out = .ok root' ∧ HasSet items root root' ∧ upsert out items = .ok out) ↔
      out = t ∨ root.IsSpelled := by
  have htable := isTable_of_read hread
  have hsound : (setAll items root).indented.IsSound :=
    (isFormed_setAll (P := IsLegal) (fun _ hc => absurd hc List.not_mem_nil) hitems.legal
      htable.sound).laidOut isLegal_lineAtLevel 1
  have hwritten (hout : out = write t (setAll items root)) :
      (∃ root', read out = .ok root' ∧ HasSet items root root' ∧ upsert out items = .ok out) ↔
        root.IsSpelled := by
    subst hout
    constructor
    · rintro ⟨root', hread', -, -⟩
      exact ((read_write_setAll_iff htable hsound).1 hread').1
    · intro hspelled
      have hread' := (read_write_setAll_iff (t := t) htable hsound).2 ⟨hspelled, rfl⟩
      have hset := hasSet_reread hitems htable
      have hblank := isBlankText_write t (isRoot_setAll htable.isRoot items)
      exact ⟨_, hread', hset, upsert_of_hasAll hread' hblank hset.hasAll⟩
  rcases upsert_cases hread hupsert with ⟨rfl, hall⟩ | hout
  · exact ⟨fun _ => .inl rfl, fun _ => ⟨root, hread, .refl hall, hupsert⟩⟩
  · refine ⟨fun h => .inr ((hwritten hout).1 h), fun h => (hwritten hout).2 ?_⟩
    rcases h with rfl | hspelled
    · -- the text is read, and is what is written
      rw [hout] at hread
      exact ((read_write_setAll_iff htable hsound).1 hread).1
    · exact hspelled

end Main

/-- A table with a comment and a string. -/
def smallTable : Text :=
  "<resources><!--c--><string name=\"a\">1</string></resources>".toList

def smallRoot : Node :=
  .element rootName [] []
    [.comment ['c'] [], .element stringName [(keyName, ['a'])] ['1'] [] []] []

/-- Values that would be markup, for a string that is there and for a new one. -/
def smallItems : Items := [("a".toList, "<b/>".toList), ("k".toList, "]]>".toList)]

def smallResult : Text :=
  ("<resources>\n  <!--c-->\n  <string name=\"a\">&lt;b/&gt;</string>\n" ++
    "  <string name=\"k\">]]&gt;</string>\n</resources>\n").toList

theorem read_smallTable : read smallTable = .ok smallRoot := rfl

theorem upsert_smallTable : upsert smallTable smallItems = .ok smallResult := by decide +kernel

theorem upsert_settles_smallTable :
    ∃ root', read smallResult = .ok root' ∧ HasSet smallItems smallRoot root' ∧
      upsert smallResult smallItems = .ok smallResult := by
  have hitems : AreStorable smallItems := ⟨by decide, by decide, by decide⟩
  have hspelled : smallRoot.IsSpelled := by decide
  exact (upsert_settles_iff read_smallTable upsert_smallTable hitems).2 (.inr hspelled)

/-- A table whose root has an attribute by default, with a local part that begins as no name does. -/
def defaultedTable : Text :=
  "<!DOCTYPE resources [<!ATTLIST resources a:1 CDATA \"x\">]><resources xmlns:a=\"u\"/>".toList

def defaultedResult : Text :=
  "<resources xmlns:ns0=\"u\" ns0:1=\"x\">\n  <string name=\"k\">v</string>\n</resources>\n".toList

/-- The attribute that was there by default is written out, under a name that is refused. -/
theorem upsert_unsettled_defaultedTable :
    AreStorable [(['k'], ['v'])] ∧ upsert defaultedTable [(['k'], ['v'])] = .ok defaultedResult ∧
      ¬∃ root', read defaultedResult = .ok root' := by
  have hrefused : (read defaultedResult).isOk = false := by decide +kernel
  refine ⟨⟨by decide, by decide, by decide⟩, by decide +kernel, ?_⟩
  rintro ⟨root', hread⟩
  rw [hread] at hrefused
  cases hrefused

/-! ## What can be set again -/

/-- The strings of a table with its strings set can be set again exactly when it is the text itself,
or it is legal and the local part of every name begins as a name does. -/
theorem upsert_again_iff {t out : Text} {items : Items} {root : Node} (hread : read t = .ok root)
    (hupsert : upsert t items = .ok out) :
    (∃ again, upsert out items = .ok again) ↔ out = t ∨ IsLegal out ∧ root.IsSpelled := by
  have htable := isTable_of_read hread
  have hroot := isRoot_setAll htable.isRoot items
  constructor
  · rintro ⟨again, hagain⟩
    obtain ⟨root', hread', -⟩ := bind_eq_ok.1 hagain
    refine (upsert_cases hread hupsert).imp And.left ?_
    rintro rfl
    have hlegal := isLegal_of_read_write hroot hread'
    have hsound := isSound_of_isLegal_write htable hlegal
    exact ⟨hlegal, ((read_write_setAll_iff htable hsound).1 hread').1⟩
  · intro h
    suffices hread' : ∃ root', read out = .ok root' by
      obtain ⟨root', hread'⟩ := hread'
      exact ⟨_, bind_eq_ok.2 ⟨root', hread', rfl⟩⟩
    rcases upsert_cases hread hupsert with ⟨rfl, -⟩ | rfl
    · exact ⟨root, hread⟩
    rcases h with heq | ⟨hlegal, hspelled⟩
    · exact ⟨root, (congrArg read heq).trans hread⟩
    · have hsound := isSound_of_isLegal_write htable hlegal
      exact ⟨_, (read_write_setAll_iff htable hsound).2 ⟨hspelled, rfl⟩⟩

/-- A string that gets another value makes another text. -/
theorem upsert_ne_self {t out : Text} {items : Items} {root : Node} (hread : read t = .ok root)
    (hupsert : upsert t items = .ok out) (hkeys : (items.map (·.1)).Nodup) {item : Text × Text}
    (hitem : item ∈ items) (hblank : Text.isBlankText item.2 = false) (hreturn : '\r' ∉ item.2)
    (hother : find? root.children item.1 ≠ some item.2) : out ≠ t := by
  rintro rfl
  rcases upsert_cases hread hupsert with ⟨-, hall⟩ | hout
  · exact hother (of_decide_eq_true (List.all_eq_true.1 hall item hitem))
  · have htable := isTable_of_read hread
    have hagain := hread
    rw [hout] at hagain
    have hlegal := isLegal_of_read_write (isRoot_setAll htable.isRoot items) hagain
    obtain ⟨-, hsame⟩ :=
      (read_write_setAll_iff htable (isSound_of_isLegal_write htable hlegal)).1 hagain
    rw [hsame] at hother
    exact hother (find?_reread hkeys htable hitem hblank hreturn)

/-- Legal items make a legal table. -/
theorem isLegal_upsert {t out : Text} {items : Items} {root : Node} (hread : read t = .ok root)
    (hspelled : root.IsSpelled) (hitems : ∀ item ∈ items, IsLegal item.1 ∧ IsLegal item.2)
    (hupsert : upsert t items = .ok out) : out = t ∨ IsLegal out := by
  have htable := isTable_of_read hread
  refine (upsert_cases hread hupsert).imp And.left ?_
  rintro rfl
  have hsound : (setAll items root).indented.IsSound :=
    (isFormed_setAll (P := IsLegal) (fun _ hc => absurd hc List.not_mem_nil) hitems
      htable.sound).laidOut isLegal_lineAtLevel 1
  exact isLegal_of_read_write (isRoot_setAll htable.isRoot items)
    ((read_write_setAll_iff htable hsound).2 ⟨hspelled, rfl⟩)

/-! ## Other children -/

section Others

variable {t out : Text} {items : Items} {root : Node} (hread : read t = .ok root)
  (hupsert : upsert t items = .ok out)

include hread hupsert

/-- The children that no item is for keep what is inside of them exactly when the text itself is the
result, or the result is legal, names are spelled out and these children are laid out already. -/
theorem upsert_keepsUnset_iff :
    (∃ root', read out = .ok root' ∧ KeepsUnset items root root') ↔
      out = t ∨ IsLegal out ∧ root.IsSpelled ∧ AreSteady items root := by
  have htable := isTable_of_read hread
  have hsound (hlegal : IsLegal (write t (setAll items root))) :
      (setAll items root).indented.IsSound := isSound_of_isLegal_write htable hlegal
  constructor
  · rintro ⟨root', hread', hkeeps⟩
    refine or_iff_not_imp_left.2 fun hne => ?_
    obtain rfl := (upsert_cases hread hupsert).resolve_left fun h => hne h.1
    have hlegal := isLegal_of_read_write (isRoot_setAll htable.isRoot items) hread'
    obtain ⟨hspelled, rfl⟩ := (read_write_setAll_iff htable (hsound hlegal)).1 hread'
    exact ⟨hlegal, hspelled, (keepsUnset_reread_iff items htable).1 hkeeps⟩
  · rintro (rfl | ⟨hlegal, hspelled, hsteady⟩)
    · exact ⟨root, hread, fun index node hnode _ => ⟨node, hnode, rfl⟩⟩
    · rcases upsert_cases hread hupsert with ⟨rfl, -⟩ | rfl
      · exact ⟨root, hread, fun index node hnode _ => ⟨node, hnode, rfl⟩⟩
      · have hread' := (read_write_setAll_iff (t := t) htable (hsound hlegal)).2 ⟨hspelled, rfl⟩
        exact ⟨_, hread', (keepsUnset_reread_iff items htable).2 hsteady⟩

end Others

theorem upsert_keepsUnset_smallTable :
    ∃ root', read smallResult = .ok root' ∧ KeepsUnset smallItems smallRoot root' := by
  have hlegal : IsLegal smallResult := by decide +kernel
  have hspelled : smallRoot.IsSpelled := by decide
  refine (upsert_keepsUnset_iff read_smallTable upsert_smallTable).2
    (.inr ⟨hlegal, hspelled, ?_⟩)
  rintro (_ | _ | index) node hnode hunset
  · obtain rfl := Option.some.inj hnode
    trivial
  · obtain rfl := Option.some.inj hnode
    have hreturn : '\r' ∉ ['1'] := by decide
    exact ⟨hreturn, trivial⟩
  · cases hnode

/-- A table with markup inside of a string. -/
def inlineTable : Text :=
  "<resources><string name=\"a\"><b>x</b><i>y</i></string></resources>".toList

def inlineRoot : Node :=
  .element rootName [] []
    [.element stringName [(keyName, ['a'])] []
      [.element (.plain "b") [] ['x'] [] [], .element (.plain "i") [] ['y'] [] []] []] []

def inlineResult : Text :=
  ("<resources>\n  <string name=\"a\">\n    <b>x</b>\n    <i>y</i>\n  </string>\n" ++
    "  <string name=\"k\">v</string>\n</resources>\n").toList

/-- What the result is read as. -/
def inlineReread : Node :=
  .element rootName [] "\n  ".toList
    [.element stringName [(keyName, ['a'])] "\n    ".toList
      [.element (.plain "b") [] ['x'] [] "\n    ".toList,
        .element (.plain "i") [] ['y'] [] "\n  ".toList] "\n  ".toList,
      .element stringName [(keyName, ['k'])] ['v'] [] ['\n']] []

set_option maxRecDepth 2000 in
/-- The markup inside of the string is laid out on lines of its own. -/
theorem upsert_spaces_inlineTable :
    read inlineTable = .ok inlineRoot ∧
      upsert inlineTable [(['k'], ['v'])] = .ok inlineResult ∧
      ¬∃ root', read inlineResult = .ok root' ∧ KeepsUnset [(['k'], ['v'])] inlineRoot root' := by
  refine ⟨rfl, by decide +kernel, ?_⟩
  rintro ⟨root', hread, hkeeps⟩
  have hresult : read inlineResult = .ok inlineReread := rfl
  obtain rfl := Except.ok.inj (hread.symm.trans hresult)
  have hunset : IsUnset [(['k'], ['v'])] inlineRoot.children 0 := by
    intro item hitem node hnode hnamed
    obtain rfl := List.mem_singleton.1 hitem
    obtain rfl := Option.some.inj hnode
    cases hnamed
  obtain ⟨node, hnode, hinside⟩ := hkeeps 0 _ rfl hunset
  obtain rfl := Option.some.inj hnode
  have hvalue := congrArg valueOf hinside
  revert hvalue
  decide

end BundleHook.StringTable
