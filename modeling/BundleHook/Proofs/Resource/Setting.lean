import BundleHook.Proofs.Markup.Layout

/-!
# Setting strings

Setting a string changes the text of the last string of its name, or appends a new one. Every child
keeps its place and what it is by itself; only the text of a string that is set changes.
-/

namespace BundleHook.StringTable

open Markup

/-! ## Changing the last wanted node -/

section ChangeLast

variable {wanted : Node → Bool} {change : Node → Node}

theorem changeLast_eq_none {nodes : List Node} :
    changeLast wanted change nodes = none ↔ ∀ node ∈ nodes, wanted node = false := by
  induction nodes with
  | nil => simp [changeLast]
  | cons node nodes ih =>
      rw [changeLast, List.forall_mem_cons, ← ih]
      split
      · next changed hchanged => simp [hchanged]
      · next hnone =>
        split <;> simp_all

/-- The node that is changed is the last one that is wanted. -/
theorem changeLast_eq_some {nodes out : List Node} (h : changeLast wanted change nodes = some out) :
    ∃ before node after, nodes = before ++ node :: after ∧ wanted node = true ∧
      (∀ other ∈ after, wanted other = false) ∧ out = before ++ change node :: after := by
  induction nodes generalizing out with
  | nil => cases h
  | cons first nodes ih =>
      rw [changeLast] at h
      split at h
      · next changed hchanged =>
        obtain ⟨before, node, after, rfl, hwanted, hafter, rfl⟩ := ih hchanged
        obtain rfl := Option.some.inj h
        exact ⟨first :: before, node, after, rfl, hwanted, hafter, rfl⟩
      · next hnone =>
        split at h
        · next hwanted =>
          obtain rfl := Option.some.inj h
          exact ⟨[], first, nodes, rfl, hwanted, changeLast_eq_none.1 hnone, rfl⟩
        · cases h

end ChangeLast

/-! ## Strings of a name -/

@[simp] theorem isStringNamed_bare (key : Text) (node : Node) :
    isStringNamed key node.bare = isStringNamed key node := by
  cases node <;> rfl

@[simp] theorem isStringNamed_withLead (key lead : Text) (node : Node) :
    isStringNamed key (node.withLead lead) = isStringNamed key node := by
  cases node <;> rfl

theorem isStringNamed_of_bare {key : Text} {node other : Node} (h : other.bare = node.bare) :
    isStringNamed key other = isStringNamed key node := by
  rw [← isStringNamed_bare, h, isStringNamed_bare]

@[simp] theorem isStringNamed_newString (key other value : Text) :
    isStringNamed key (newString other value) = decide (other = key) := by
  simp [isStringNamed, newString]

/-- A string has one name. -/
theorem eq_of_isStringNamed {key other : Text} {node : Node} (h : isStringNamed key node = true)
    (hother : isStringNamed other node = true) : key = other := by
  cases node with
  | element name attributes lead children tail =>
      simp only [isStringNamed, Bool.and_eq_true, decide_eq_true_eq] at h hother
      exact Option.some.inj (h.2.symm.trans hother.2)
  | comment body tail => cases h

theorem valueOf_withLead {key lead : Text} {node : Node} (h : isStringNamed key node = true) :
    valueOf (node.withLead lead) = lead := by
  cases node with
  | element => rfl
  | comment => cases h

/-- The last string of a name. -/
def last? (children : List Node) (key : Text) : Option Node :=
  children.reverse.find? (isStringNamed key)

theorem find?_eq_map_last? (children : List Node) (key : Text) :
    find? children key = (last? children key).map valueOf := rfl

theorem last?_of_last {before after : List Node} {node : Node} {key : Text}
    (hnode : isStringNamed key node = true)
    (hafter : ∀ other ∈ after, isStringNamed key other = false) :
    last? (before ++ node :: after) key = some node := by
  have hnone : after.reverse.find? (isStringNamed key) = none := by
    simpa [List.find?_eq_none] using hafter
  simp [last?, List.find?_append, hnone, hnode]

theorem isStringNamed_of_last? {children : List Node} {key : Text} {node : Node}
    (h : last? children key = some node) : isStringNamed key node = true :=
  List.find?_some h

theorem find?_eq_none {children : List Node} {key : Text} :
    find? children key = none ↔ ∀ node ∈ children, isStringNamed key node = false := by
  simp [find?, List.find?_eq_none]

/-- The value of a name is that of the last string of the name. -/
theorem find?_of_last {before after : List Node} {node : Node} {key : Text}
    (hnode : isStringNamed key node = true)
    (hafter : ∀ other ∈ after, isStringNamed key other = false) :
    find? (before ++ node :: after) key = some (valueOf node) := by
  rw [find?_eq_map_last?, last?_of_last hnode hafter, Option.map_some]

/-! ## One string -/

/-- A string is set in its place, or becomes the last child. -/
theorem set_cases (children : List Node) (key value : Text) :
    ((∀ node ∈ children, isStringNamed key node = false) ∧
      set children key value = children ++ [newString key value]) ∨
    ∃ before node after, children = before ++ node :: after ∧ isStringNamed key node = true ∧
      (∀ other ∈ after, isStringNamed key other = false) ∧
      set children key value = before ++ node.withLead value :: after := by
  unfold set
  cases hchange : changeLast (isStringNamed key) (Node.withLead value) children with
  | none => exact .inl ⟨changeLast_eq_none.1 hchange, rfl⟩
  | some out =>
      obtain ⟨before, node, after, hchildren, hnode, hafter, rfl⟩ := changeLast_eq_some hchange
      exact .inr ⟨before, node, after, hchildren, hnode, hafter, rfl⟩

/-- What the string of a name becomes: the last one with a new text, or a new one. -/
def stringSet (children : List Node) (key value : Text) : Node :=
  ((last? children key).map (Node.withLead value)).getD (newString key value)

theorem valueOf_stringSet (children : List Node) (key value : Text) :
    valueOf (stringSet children key value) = value := by
  unfold stringSet
  cases hlast : last? children key with
  | none => rfl
  | some node => exact valueOf_withLead (isStringNamed_of_last? hlast)

theorem last?_set_self (children : List Node) (key value : Text) :
    last? (set children key value) key = some (stringSet children key value) := by
  rcases set_cases children key value with ⟨hnone, hset⟩ |
    ⟨before, node, after, rfl, hnode, hafter, hset⟩
  · have hlast : last? children key = none := by
      simpa [last?, List.find?_eq_none] using hnone
    rw [hset, last?_of_last (by simp) (by simp), stringSet, hlast]
    rfl
  · rw [hset, last?_of_last (by simpa using hnode) hafter, stringSet, last?_of_last hnode hafter]
    rfl

theorem last?_set_of_ne (children : List Node) {key other : Text} (value : Text)
    (hne : other ≠ key) : last? (set children key value) other = last? children other := by
  rcases set_cases children key value with ⟨-, hset⟩ | ⟨before, node, after, rfl, hnode, -, hset⟩
  · simp [hset, last?, hne.symm]
  · have hnode : isStringNamed other node = false := by
      rw [Bool.eq_false_iff]
      exact fun hother => hne (eq_of_isStringNamed hother hnode)
    rw [hset]
    simp [last?, List.find?_append, hnode]

/-- Setting a string keeps everything about the children but their values, and appends a new string
when there is none of its name. -/
theorem map_set {α : Type} {f : Node → α} (hf : ∀ lead node, f (node.withLead lead) = f node)
    (children : List Node) (key value : Text) :
    (set children key value).map f = children.map f ++
      if (find? children key).isNone then [f (newString key value)] else [] := by
  rcases set_cases children key value with ⟨hnone, hset⟩ |
    ⟨before, node, after, rfl, hnode, hafter, hset⟩
  · simp [hset, find?_eq_none.2 hnone]
  · rw [hset]
    simp [find?_of_last hnode hafter, hf]

/-! ## All strings -/

/-- The children with all strings set, one after the other. -/
def setEach (items : Items) (children : List Node) : List Node :=
  items.foldl (fun children (key, value) => set children key value) children

theorem setAll_element (items : Items) (name : Name) (attributes : List (Name × Text)) (lead : Text)
    (children : List Node) (tail : Text) :
    setAll items (.element name attributes lead children tail) =
      .element name attributes lead (setEach items children) tail := rfl

theorem last?_setEach_of_notMem {items : Items} {key : Text} (h : key ∉ items.map (·.1))
    (children : List Node) : last? (setEach items children) key = last? children key := by
  induction items generalizing children with
  | nil => rfl
  | cons item items ih =>
      rw [List.map_cons, List.mem_cons, not_or] at h
      exact (ih h.2 _).trans (last?_set_of_ne children item.2 h.1)

theorem last?_setEach {items : Items} (hkeys : (items.map (·.1)).Nodup) (children : List Node) :
    ∀ item ∈ items,
      last? (setEach items children) item.1 = some (stringSet children item.1 item.2) := by
  induction items generalizing children with
  | nil => exact fun _ hmem => absurd hmem List.not_mem_nil
  | cons item items ih =>
      rw [List.map_cons, List.nodup_cons] at hkeys
      intro other hother
      rcases List.mem_cons.1 hother with rfl | hother
      · exact (last?_setEach_of_notMem hkeys.1 _).trans (last?_set_self children other.1 other.2)
      · have hne : other.1 ≠ item.1 := fun heq => hkeys.1 (heq ▸ List.mem_map_of_mem hother)
        have hlater := ih hkeys.2 (set children item.1 item.2) other hother
        rwa [stringSet, last?_set_of_ne children item.2 hne] at hlater

theorem find?_setEach {items : Items} (hkeys : (items.map (·.1)).Nodup) (children : List Node)
    {item : Text × Text} (hitem : item ∈ items) :
    find? (setEach items children) item.1 = some item.2 := by
  rw [find?_eq_map_last?, last?_setEach hkeys children item hitem, Option.map_some,
    valueOf_stringSet]

/-- The items whose names no child carries. -/
def newItems (items : Items) (children : List Node) : Items :=
  items.filter fun item => (find? children item.1).isNone

/-- The children keep everything but their values, and are followed by one new string for each name
that none of them carries, in the order of the items. -/
theorem map_setEach {α : Type} {f : Node → α} (hf : ∀ lead node, f (node.withLead lead) = f node)
    {items : Items} (hkeys : (items.map (·.1)).Nodup) (children : List Node) :
    (setEach items children).map f = children.map f ++
      (newItems items children).map fun item => f (newString item.1 item.2) := by
  induction items generalizing children with
  | nil => simp [setEach, newItems]
  | cons item items ih =>
      rw [List.map_cons, List.nodup_cons] at hkeys
      have hothers : newItems items (set children item.1 item.2) = newItems items children := by
        refine List.filter_congr fun other hother => ?_
        have hne : other.1 ≠ item.1 := fun heq => hkeys.1 (heq ▸ List.mem_map_of_mem hother)
        rw [find?_eq_map_last?, last?_set_of_ne children item.2 hne, find?_eq_map_last?]
      show (setEach items (set children item.1 item.2)).map f = _
      rw [ih hkeys.2, map_set hf, hothers, List.append_assoc]
      cases hfind : find? children item.1 <;> simp [newItems, hfind]

theorem map_subset_setEach {α : Type} {f : Node → α}
    (hf : ∀ lead node, f (node.withLead lead) = f node) (items : Items) (children : List Node) :
    children.map f ⊆ (setEach items children).map f := by
  induction items generalizing children with
  | nil => exact List.Subset.refl _
  | cons item items ih =>
      refine List.Subset.trans ?_ (ih (set children item.1 item.2))
      rw [map_set hf]
      exact List.subset_append_left _ _

/-! ## Children that are not set -/

/-- No item is for the child at the index: if it is a string of a name that is set, another string
of this name stands behind it. -/
def IsUnset (items : Items) (children : List Node) (index : Nat) : Prop :=
  ∀ item ∈ items, ∀ node, children[index]? = some node → isStringNamed item.1 node = true →
    ∃ other ∈ children.drop (index + 1), isStringNamed item.1 other = true

section Unset

variable {children : List Node} {index : Nat} {node : Node} (hnode : children[index]? = some node)

include hnode

theorem getElem?_set {key : Text} (value : Text)
    (hlater : isStringNamed key node = true →
      ∃ other ∈ children.drop (index + 1), isStringNamed key other = true) :
    (set children key value)[index]? = some node := by
  rcases set_cases children key value with ⟨-, hset⟩ | ⟨before, last, after, rfl, hlast, hafter, hset⟩
  · obtain ⟨hindex, -⟩ := List.getElem?_eq_some_iff.1 hnode
    rw [hset, List.getElem?_append_left hindex, hnode]
  · rw [hset]
    rcases Nat.lt_trichotomy index before.length with hlt | heq | hgt
    · rw [List.getElem?_append_left hlt] at hnode ⊢
      exact hnode
    · -- the child would be the last string of the name
      subst heq
      obtain rfl : last = node := by simpa using hnode
      obtain ⟨other, hother, hnamed⟩ := hlater hlast
      rw [hafter other (by simpa using hother)] at hnamed
      cases hnamed
    · obtain ⟨offset, rfl⟩ := Nat.exists_eq_add_of_lt hgt
      rw [List.getElem?_append_right (by omega)] at hnode ⊢
      rw [show before.length + offset + 1 - before.length = offset + 1 by omega] at hnode ⊢
      exact hnode

theorem IsUnset.set {items : Items} (h : IsUnset items children index) {item : Text × Text}
    (hitem : item ∈ items) : IsUnset items (set children item.1 item.2) index ∧
      (StringTable.set children item.1 item.2)[index]? = some node := by
  have hsame := getElem?_set hnode item.2 (h item hitem node hnode)
  refine ⟨fun other hother found hfound hnamed => ?_, hsame⟩
  obtain rfl : node = found := Option.some.inj (hsame.symm.trans hfound)
  obtain ⟨later, hlater, hlaterNamed⟩ := h other hother node hnode hnamed
  have hbare : later.bare ∈ ((StringTable.set children item.1 item.2).map Node.bare).drop (index + 1) := by
    rw [map_set (fun lead node => Node.bare_withLead lead node), List.drop_append]
    refine List.mem_append_left _ ?_
    rw [← List.map_drop]
    exact List.mem_map_of_mem hlater
  rw [← List.map_drop] at hbare
  obtain ⟨kept, hkept, heq⟩ := List.mem_map.1 hbare
  exact ⟨kept, hkept, (isStringNamed_of_bare heq).trans hlaterNamed⟩

/-- A child that no item is for stays as it is. -/
theorem getElem?_setEach {items : Items} (h : IsUnset items children index) :
    (setEach items children)[index]? = some node := by
  suffices hall : ∀ first : Items, (∀ item ∈ first, item ∈ items) →
      (setEach first children)[index]? = some node from hall items fun _ h => h
  intro first hfirst
  induction first generalizing children with
  | nil => exact hnode
  | cons item first ih =>
      obtain ⟨hunset, hsame⟩ := h.set hnode (hfirst item List.mem_cons_self)
      exact ih hsame hunset fun other hother => hfirst other (List.mem_cons_of_mem item hother)

end Unset

/-! ## Names and texts -/

theorem names_withLead (lead : Text) (node : Node) : (node.withLead lead).names = node.names := by
  cases node <;> rfl

theorem names_newString (key value : Text) : (newString key value).names = [stringName, keyName] :=
  rfl

/-- The children after a string is set: those from before, perhaps with the new text, and perhaps a
new string. -/
theorem mem_set {children : List Node} {key value : Text} {node : Node}
    (h : node ∈ set children key value) :
    node ∈ children ∨ (∃ child ∈ children, node = child.withLead value) ∨
      node = newString key value := by
  rcases set_cases children key value with ⟨-, hset⟩ | ⟨before, last, after, rfl, -, -, hset⟩
  · rw [hset] at h
    simp only [List.mem_append, List.mem_singleton] at h
    tauto
  · rw [hset] at h
    simp only [List.mem_append, List.mem_cons] at h ⊢
    rcases h with h | rfl | h
    · exact .inl (.inl h)
    · exact .inr (.inl ⟨last, .inr (.inl rfl), rfl⟩)
    · exact .inl (.inr (.inr h))

/-- What holds of all children, of a child with a value of the items and of a new string, holds of
all children once the strings are set. -/
theorem forall_mem_setEach {p : Node → Prop} {items : Items}
    (hlead : ∀ item ∈ items, ∀ node, p node → p (node.withLead item.2))
    (hnew : ∀ item ∈ items, p (newString item.1 item.2)) {children : List Node}
    (h : ∀ node ∈ children, p node) : ∀ node ∈ setEach items children, p node := by
  induction items generalizing children with
  | nil => exact h
  | cons item items ih =>
      refine ih (fun other hother => hlead other (List.mem_cons_of_mem item hother))
        (fun other hother => hnew other (List.mem_cons_of_mem item hother)) fun node hnode => ?_
      rcases mem_set hnode with hnode | ⟨child, hchild, rfl⟩ | rfl
      · exact h node hnode
      · exact hlead item List.mem_cons_self child (h child hchild)
      · exact hnew item List.mem_cons_self

end BundleHook.StringTable
