import BundleHook.Markup.Node
import BundleHook.Proofs.Markup.Naming

/-!
# Trees that are written and read again

A tree that a document can have is written as a document that tells the same tree, with its line
ends unified, as long as the local part of every name begins as a name does; otherwise what is
written is no document.
-/

namespace BundleHook.Markup

abbrev IsLegal (t : Text) : Prop := ∀ c ∈ t, isForbidden c = false

namespace Node

/-! ## Names of a tree -/

mutual

/-- The names in a node, in the order in which they are written. -/
def names : Node → List Name
  | element name attributes _ children _ => name :: (attributes.map (·.1) ++ allNames children)
  | comment _ _ => []

def allNames : List Node → List Name
  | [] => []
  | node :: others => node.names ++ allNames others

end

theorem mem_allNames {nodes : List Node} {name : Name} :
    name ∈ allNames nodes ↔ ∃ node ∈ nodes, name ∈ node.names := by
  induction nodes with
  | nil => simp [allNames]
  | cons node nodes ih => simp [allNames, ih]

theorem mem_names_element {name other : Name} {attributes : List (Name × Text)} {lead tail : Text}
    {children : List Node} :
    other ∈ (element name attributes lead children tail).names ↔
      other = name ∨ other ∈ attributes.map (·.1) ∨ ∃ child ∈ children, other ∈ child.names := by
  rw [names, List.mem_cons, List.mem_append, mem_allNames]

theorem foldl_attributes (d : Declarations) (attributes : List (Name × Text)) :
    attributes.foldl (fun d (name, _) => d.addName name) d =
      (attributes.map (·.1)).foldl Declarations.addName d := by
  rw [List.foldl_map]

mutual

theorem addNode_eq (d : Declarations) (node : Node) :
    d.addNode node = node.names.foldl Declarations.addName d := by
  cases node with
  | element name attributes lead children tail =>
      rw [Declarations.addNode, addNodes_eq, names, foldl_attributes, List.foldl_cons,
        List.foldl_append]
  | comment body tail => rfl

theorem addNodes_eq (d : Declarations) (nodes : List Node) :
    d.addNodes nodes = (allNames nodes).foldl Declarations.addName d := by
  cases nodes with
  | nil => rfl
  | cons node others =>
      rw [Declarations.addNodes, addNodes_eq, addNode_eq, allNames, List.foldl_append]

end

theorem ofNode_eq (root : Node) :
    Declarations.ofNode root = Declarations.ofNames root.names := addNode_eq [] root

/-! ## Trees of documents -/

/-- A tree as a document can have it, but for its texts, which are of some kind. -/
inductive IsFormed (P : Text → Prop) : Node → Prop where
  | element {name : Name} {attributes : List (Name × Text)} {lead tail : Text}
      {children : List Node} (hname : name.IsSound) (hspelled : name.IsSpelled)
      (hattributes : ∀ entry ∈ attributes, entry.1.IsSound ∧ entry.1 ≠ ⟨[], "xmlns".toList⟩ ∧
        P entry.2)
      (hnodup : (attributes.map (·.1)).Nodup) (hlead : P lead)
      (hchildren : ∀ child ∈ children, child.IsFormed P) (htail : P tail) :
      IsFormed P (element name attributes lead children tail)
  | comment {body tail : Text} (hbody : IsCommentBody body) (hlegal : IsLegal body)
      (hreturn : '\r' ∉ body) (htail : P tail) : IsFormed P (comment body tail)

/-- A tree as a document can have it. -/
abbrev IsSound (node : Node) : Prop := node.IsFormed IsLegal

/-- A tree that is the whole of a document: an element without a tail. -/
def IsRoot (root : Node) : Prop :=
  ∃ name attributes lead children, root = element name attributes lead children []

section Formed

variable {P : Text → Prop}

theorem IsFormed.mono {Q : Text → Prop} (hPQ : ∀ t, P t → Q t) {node : Node}
    (h : node.IsFormed P) : node.IsFormed Q := by
  induction h with
  | element hname hspelled hattributes hnodup hlead _ htail ih =>
      exact .element hname hspelled
        (fun entry hentry => ⟨(hattributes entry hentry).1, (hattributes entry hentry).2.1,
          hPQ _ (hattributes entry hentry).2.2⟩) hnodup (hPQ _ hlead) ih (hPQ _ htail)
  | comment hbody hlegal hreturn htail => exact .comment hbody hlegal hreturn (hPQ _ htail)

theorem IsFormed.withTail {node : Node} (h : node.IsFormed P) {tail : Text} (htail : P tail) :
    (node.withTail tail).IsFormed P := by
  cases h with
  | element hname hspelled hattributes hnodup hlead hchildren _ =>
      exact .element hname hspelled hattributes hnodup hlead hchildren htail
  | comment hbody hlegal hreturn _ => exact .comment hbody hlegal hreturn htail

theorem IsFormed.tail {node : Node} (h : node.IsFormed P) : P node.tail := by
  cases h with
  | element _ _ _ _ _ _ htail => exact htail
  | comment _ _ _ htail => exact htail

end Formed

theorem IsSound.names {node : Node} (h : node.IsSound) : ∀ name ∈ node.names, name.IsSound := by
  induction h with
  | element hname _ hattributes _ _ _ _ ih =>
      intro name hmem
      rcases mem_names_element.1 hmem with rfl | hmem | ⟨child, hchild, hmem⟩
      · exact hname
      · obtain ⟨entry, hentry, rfl⟩ := List.mem_map.1 hmem
        exact (hattributes entry hentry).1
      · exact ih child hchild name hmem
  | comment => exact fun _ hmem => absurd hmem List.not_mem_nil

/-- The local part of every name in the node begins as a name does. -/
def IsSpelled (node : Node) : Prop := ∀ name ∈ node.names, name.IsSpelled

instance (node : Node) : Decidable node.IsSpelled :=
  inferInstanceAs (Decidable (∀ name ∈ node.names, name.IsSpelled))

/-! ## Events of a tree -/

/-- The events of a text. -/
def textEvents (t : Text) : List Event := (Text.unifyLines t).map .char

mutual

def events : Node → List Event
  | element name attributes lead children tail =>
    .opened name attributes :: (textEvents lead ++ allEvents children) ++ [.closed] ++
      textEvents tail
  | comment body tail => .comment (Text.unifyLines body) :: textEvents tail

def allEvents : List Node → List Event
  | [] => []
  | node :: others => node.events ++ allEvents others

end

/-- How an element is written, with its declarations among its attributes. -/
theorem write_element (d : Declarations) (declared : List (Text × Text)) (name : Name)
    (attributes : List (Name × Text)) (lead : Text) (children : List Node) (tail : Text) :
    write d (writeAttributes declared) (element name attributes lead children tail) =
      (if lead.isEmpty && children.isEmpty then
        '<' :: d.write name ++ writeAttributes (declared ++ d.writeNames attributes) ++
          [' ', '/', '>']
      else
        '<' :: d.write name ++ writeAttributes (declared ++ d.writeNames attributes) ++
          '>' :: (lead.flatMap escapeInText ++ writeAll d children) ++
          '<' :: '/' :: (d.write name ++ ['>'])) ++ tail.flatMap escapeInText := by
  simp only [write, writeAttributes, Declarations.writeNames, List.flatMap_append,
    List.flatMap_map, List.append_assoc, List.cons_append]

section Writing

variable {isStrict : Bool} {d : Declarations} {b outer : Bindings} {opened : List OpenElement}
  {behindText : Bool} {name : Name} {attributes : List (Name × Text)} {lead : Text}
  {children : List Node} {declared : List (Text × Text)}

/-- Inside an element, the text may be its lead with its children. -/
abbrev TellsInside (isStrict : Bool) (d : Declarations) (b : Bindings) (lead : Text)
    (children : List Node) : Prop :=
  ∀ opened, opened ≠ [] → Tells isStrict (.initial true) ⟨b, opened, false⟩ ⟨b, opened, true⟩
    (lead.flatMap escapeInText ++ writeAll d children) (textEvents lead ++ allEvents children)

/-- An element tells its events when what is inside of it does. -/
theorem tellsElement_write
    (hwritten : ∀ entry ∈ declared ++ d.writeNames attributes, IsTagName entry.1 ∧ IsLegal entry.2)
    (hname : IsTagName (d.write name))
    (hopens : OpensAs (.initial true) outer (d.write name) (declared ++ d.writeNames attributes) b
      name attributes)
    (hinside : TellsInside isStrict d b lead children) :
    TellsElement isStrict (.initial true) outer opened
      (write d (writeAttributes declared) (element name attributes lead children []))
      (events (element name attributes lead children [])) := by
  rw [write_element, events]
  split
  · next hempty =>
    simp only [Bool.and_eq_true, List.isEmpty_iff] at hempty
    obtain ⟨rfl, rfl⟩ := hempty
    simpa [textEvents, allEvents, Text.unifyLines] using
      tellsElement_empty hname hwritten hopens (.inr rfl)
  · have hwhole := tellsElement hname hwritten hopens
      (hinside (⟨d.write name, outer⟩ :: opened) (List.cons_ne_nil _ _))
    simpa [textEvents, Text.unifyLines] using hwhole

theorem tells_writeAll
    (hchildren : ∀ child ∈ children, ∀ behindText, Tells isStrict (.initial true)
      ⟨b, opened, behindText⟩ ⟨b, opened, true⟩ (write d [] child) child.events) :
    Tells isStrict (.initial true) ⟨b, opened, true⟩ ⟨b, opened, true⟩ (writeAll d children)
      (allEvents children) := by
  induction children with
  | nil => exact .nil
  | cons child children ih =>
      exact (hchildren child List.mem_cons_self true).append
        (ih fun other hother => hchildren other (List.mem_cons_of_mem child hother))

end Writing

section Spelled

variable {isStrict : Bool} {d : Declarations} {b outer : Bindings} (hb : b.Serves d)
  {opened : List OpenElement} {name : Name} {attributes : List (Name × Text)} {lead tail : Text}
  {children : List Node}

include hb

theorem writeNames_written
    (hattributes : ∀ entry ∈ attributes, IsLegal entry.2 ∧ d.Covers entry.1 ∧ entry.1.IsSpelled) :
    ∀ entry ∈ d.writeNames attributes, IsTagName entry.1 ∧ IsLegal entry.2 := by
  intro entry hentry
  obtain ⟨source, hsource, rfl⟩ := List.mem_map.1 hentry
  obtain ⟨hlegal, hcovers, hspelled⟩ := hattributes source hsource
  exact ⟨isTagName_write hb hcovers hspelled, hlegal⟩

section Element

variable {declared : List (Text × Text)}
  (hdeclared : Declare outer b declared)
  (hsound : (Node.element name attributes lead children tail).IsSound)
  (hcovers : ∀ other ∈ (Node.element name attributes lead children tail).names, d.Covers other)

include hdeclared hsound hcovers

theorem IsSound.opensAs (hspelled : ∀ entry ∈ attributes, entry.1.IsSpelled) :
    (∀ entry ∈ declared ++ d.writeNames attributes, IsTagName entry.1 ∧ IsLegal entry.2) ∧
      IsTagName (d.write name) ∧
      OpensAs (.initial true) outer (d.write name) (declared ++ d.writeNames attributes) b name
        attributes := by
  cases hsound with
  | element hname hplain hattributes hnodup =>
  have hnameCovers : d.Covers name := hcovers name (mem_names_element.2 (.inl rfl))
  have hentryCovers (entry : Name × Text) (hentry : entry ∈ attributes) : d.Covers entry.1 :=
    hcovers entry.1 (mem_names_element.2 (.inr (.inl (List.mem_map_of_mem hentry))))
  refine ⟨fun entry hentry => ?_, isTagName_write hb hnameCovers hplain,
    opensAs_write hb (fun entry hentry => ?_) hdeclared hnodup hname
      hnameCovers⟩
  · rcases List.mem_append.1 hentry with hentry | hentry
    · exact hdeclared.written entry hentry
    · exact writeNames_written hb (fun source hsource =>
        ⟨(hattributes source hsource).2.2, hentryCovers source hsource, hspelled source hsource⟩)
        entry hentry
  · obtain ⟨hentrySound, hne, -⟩ := hattributes entry hentry
    exact ⟨hentrySound, hne, hentryCovers entry hentry⟩

/-- An element tells its events when its attributes are spelled out and what is inside of it does. -/
theorem IsSound.tellsElement (hspelled : ∀ entry ∈ attributes, entry.1.IsSpelled)
    (hinside : TellsInside isStrict d b lead children) :
    TellsElement isStrict (.initial true) outer opened
      (write d (writeAttributes declared) (Node.element name attributes lead children []))
      (Node.element name attributes lead children []).events := by
  obtain ⟨hall, hname, hopens⟩ :=
    hsound.opensAs hb hdeclared hcovers hspelled
  exact tellsElement_write hall hname hopens hinside

/-- An attribute that is not spelled out breaks its element. -/
theorem IsSound.breaksElement_of_attribute
    (hspelled : ¬∀ entry ∈ attributes, entry.1.IsSpelled) :
    BreaksElement isStrict (.initial true) outer opened
      (write d (writeAttributes declared) (Node.element name attributes lead children tail)) := by
  cases hsound with
  | element hname hplain hattributes hnodup =>
  have hnameCovers : d.Covers name := hcovers name (mem_names_element.2 (.inl rfl))
  have hentryCovers (entry : Name × Text) (hentry : entry ∈ attributes) : d.Covers entry.1 :=
    hcovers entry.1 (mem_names_element.2 (.inr (.inl (List.mem_map_of_mem hentry))))
  obtain ⟨bad, before, after, hbad, hsplit, hbefore⟩ : ∃ bad before after, ¬bad.1.IsSpelled ∧
      attributes = before ++ bad :: after ∧ ∀ entry ∈ before, entry.1.IsSpelled := by
    have hfind : (attributes.find? fun entry => ¬entry.1.IsSpelled).isSome := by
      simpa [List.find?_isSome] using hspelled
    obtain ⟨bad, hfind⟩ := Option.isSome_iff_exists.1 hfind
    obtain ⟨hbad, before, after, hsplit, hbefore⟩ := List.find?_eq_some_iff_append.1 hfind
    exact ⟨bad, before, after, by simpa using hbad, hsplit, by simpa using hbefore⟩
  subst hsplit
  have hbeforeWritten : ∀ entry ∈ declared ++ d.writeNames before,
      IsTagName entry.1 ∧ IsLegal entry.2 := by
    intro entry hentry
    rcases List.mem_append.1 hentry with hentry | hentry
    · exact hdeclared.written entry hentry
    · refine writeNames_written hb (fun source hsource => ?_) entry hentry
      have hmem := List.mem_append_left (bad :: after) hsource
      exact ⟨(hattributes source hmem).2.2, hentryCovers source hmem, hbefore source hsource⟩
  have hmem : bad ∈ before ++ bad :: after := by simp
  obtain ⟨short, c, others, hshort, hc, hwrite⟩ := write_of_not_isSpelled hb
    (hentryCovers bad hmem) (hattributes bad hmem).1 hbad
  obtain ⟨more, hmore⟩ : ∃ more, write d (writeAttributes declared)
      (Node.element name (before ++ bad :: after) lead children tail) =
        '<' :: d.write name ++ writeAttributes (declared ++ d.writeNames before) ++
          writeAttribute (short ++ ':' :: c :: others) bad.2 ++ more := by
    rw [write_element, ← hwrite]
    split <;>
      (simp only [Declarations.writeNames, List.map_append, List.map_cons, writeAttributes,
        List.flatMap_append, List.flatMap_cons, List.append_assoc, List.cons_append]
       exact ⟨_, rfl⟩)
  rw [hmore]
  exact Markup.breaksElement_of_attribute rfl (isTagName_write hb hnameCovers hplain)
    hbeforeWritten hshort hc others bad.2 more

/-- What is inside of an element may break it. -/
theorem IsSound.breaksElement_of_children (hlead : IsLegal lead)
    (hspelled : ∀ entry ∈ attributes, entry.1.IsSpelled)
    (hne : children ≠ [])
    (hchildren : ∀ opened, opened ≠ [] →
      Breaks isStrict (.initial true) ⟨b, opened, true⟩ (writeAll d children)) :
    BreaksElement isStrict (.initial true) outer opened
      (write d (writeAttributes declared) (Node.element name attributes lead children tail)) := by
  obtain ⟨hall, hname, hopens⟩ :=
    hsound.opensAs hb hdeclared hcovers hspelled
  have hopened : (⟨d.write name, outer⟩ : OpenElement) :: opened ≠ [] := List.cons_ne_nil _ _
  have hinside : Breaks isStrict (.initial true) ⟨b, ⟨d.write name, outer⟩ :: opened, false⟩
      (lead.flatMap escapeInText ++ writeAll d children) :=
    (tells_text hopened hlead).breaks (hchildren _ hopened)
  have hwhole := breaksElement_of_inside hname hall hopens hinside
    ('<' :: '/' :: (d.write name ++ ['>']) ++ tail.flatMap escapeInText)
  simpa [write_element, hne] using hwhole

end Element

/-- A tree whose names are spelled out tells its events. -/
theorem IsSound.tells {node : Node} (h : node.IsSound) (hspelled : node.IsSpelled)
    (hcovers : ∀ name ∈ node.names, d.Covers name) (hopened : opened ≠ []) (behindText : Bool) :
    Tells isStrict (.initial true) ⟨b, opened, behindText⟩ ⟨b, opened, true⟩ (write d [] node)
      node.events := by
  have hsound := h
  induction h generalizing opened behindText with
  | @element name attributes lead tail children _ _ _ _ hlead hchildren htail ih =>
      have hinside : TellsInside isStrict d b lead children := by
        intro opened hopened
        refine (tells_text hopened hlead).append (tells_writeAll fun child hchild behindText => ?_)
        have hnames (other : Name) (hother : other ∈ child.names) :
            other ∈ (Node.element name attributes lead children tail).names :=
          mem_names_element.2 (.inr (.inr ⟨child, hchild, hother⟩))
        exact ih child hchild (fun other hother => hspelled other (hnames other hother))
          (fun other hother => hcovers other (hnames other hother)) hopened behindText
          (hchildren child hchild)
      have helement : TellsElement isStrict (.initial true) b opened
          (write d (writeAttributes []) (Node.element name attributes lead children []))
          (Node.element name attributes lead children []).events :=
        hsound.tellsElement hb (declare_nil b) hcovers (fun entry hentry => hspelled entry.1
          (mem_names_element.2 (.inr (.inl (List.mem_map_of_mem hentry))))) hinside
      have htells : Tells isStrict (.initial true) ⟨b, opened, behindText⟩ ⟨b, opened, false⟩ _ _ :=
        helement.tells hopened
      have hwhole := htells.append (tells_text hopened htail)
      simpa [write, events, textEvents, Text.unifyLines, writeAttributes] using hwhole
  | @comment body tail hbody hlegal _ htail =>
      rw [write, events, ← List.singleton_append]
      exact (tells_comment hopened hbody hlegal).append (tells_text hopened htail)

omit hb in
theorem breaks_writeAll
    (htells : ∀ child ∈ children, child.IsSpelled → ∀ behindText, Tells isStrict (.initial true)
      ⟨b, opened, behindText⟩ ⟨b, opened, true⟩ (write d [] child) child.events)
    (hbreaks : ∀ child ∈ children, ¬child.IsSpelled → ∀ behindText,
      Breaks isStrict (.initial true) ⟨b, opened, behindText⟩ (write d [] child))
    (hbad : ∃ child ∈ children, ¬child.IsSpelled) (behindText : Bool) :
    Breaks isStrict (.initial true) ⟨b, opened, behindText⟩ (writeAll d children) := by
  induction children generalizing behindText with
  | nil => simp at hbad
  | cons child children ih =>
      by_cases hspelled : child.IsSpelled
      · have hothers : ∃ other ∈ children, ¬other.IsSpelled := by
          obtain ⟨other, hother, hbad⟩ := hbad
          exact ⟨other, List.mem_of_ne_of_mem (fun heq => hbad (heq ▸ hspelled)) hother, hbad⟩
        exact (htells child List.mem_cons_self hspelled behindText).breaks
          (ih (fun other hother => htells other (List.mem_cons_of_mem child hother))
            (fun other hother => hbreaks other (List.mem_cons_of_mem child hother)) hothers true)
      · exact (hbreaks child List.mem_cons_self hspelled behindText).append _

/-- An element with a name that is not spelled out breaks, when such children do. -/
theorem IsSound.breaksElement {declared : List (Text × Text)}
    (hdeclared : Declare outer b declared)
    (hsound : (Node.element name attributes lead children tail).IsSound)
    (hcovers : ∀ other ∈ (Node.element name attributes lead children tail).names, d.Covers other)
    (hspelled : ¬(Node.element name attributes lead children tail).IsSpelled)
    (hbreaks : ∀ child ∈ children, ¬child.IsSpelled → ∀ opened, opened ≠ [] → ∀ behindText,
      Breaks isStrict (.initial true) ⟨b, opened, behindText⟩ (write d [] child)) :
    BreaksElement isStrict (.initial true) outer opened
      (write d (writeAttributes declared) (Node.element name attributes lead children tail)) := by
  by_cases hattributes : ∀ entry ∈ attributes, entry.1.IsSpelled
  · have hsound' := hsound
    cases hsound' with
    | element _ hplain _ _ hlead hchildren _ =>
    have hbad : ∃ child ∈ children, ¬child.IsSpelled := by
      by_contra hall
      push Not at hall
      refine hspelled fun other hother => ?_
      rcases mem_names_element.1 hother with rfl | hother | ⟨child, hchild, hother⟩
      · exact hplain
      · obtain ⟨entry, hentry, rfl⟩ := List.mem_map.1 hother
        exact hattributes entry hentry
      · exact hall child hchild other hother
    have hne : children ≠ [] := by
      rintro rfl
      simp at hbad
    refine hsound.breaksElement_of_children hb hdeclared hcovers hlead
      hattributes hne fun opened hopened => ?_
    refine breaks_writeAll (fun child hchild hspelled behindText => ?_)
      (fun child hchild hspelled => hbreaks child hchild hspelled opened hopened) hbad true
    exact IsSound.tells hb (hchildren child hchild) hspelled (fun other hother => hcovers other
      (mem_names_element.2 (.inr (.inr ⟨child, hchild, hother⟩)))) hopened behindText
  · exact hsound.breaksElement_of_attribute hb hdeclared hcovers
      hattributes

/-- A tree with a name that is not spelled out cannot be scanned. -/
theorem IsSound.breaks {node : Node} (h : node.IsSound) (hspelled : ¬node.IsSpelled)
    (hcovers : ∀ name ∈ node.names, d.Covers name) (hopened : opened ≠ []) (behindText : Bool) :
    Breaks isStrict (.initial true) ⟨b, opened, behindText⟩ (write d [] node) := by
  have hsound := h
  induction h generalizing opened behindText with
  | @element name attributes lead tail children _ _ _ _ _ hchildren _ ih =>
      have helement : BreaksElement isStrict (.initial true) b opened
          (write d (writeAttributes []) (Node.element name attributes lead children tail)) := by
        refine hsound.breaksElement hb (declare_nil b) hcovers hspelled
          fun child hchild hspelled opened hopened behindText => ?_
        exact ih child hchild hspelled (fun other hother => hcovers other
          (mem_names_element.2 (.inr (.inr ⟨child, hchild, hother⟩)))) hopened behindText
          (hchildren child hchild)
      exact helement.breaks hopened
  | comment => exact absurd (fun _ hmem => absurd hmem List.not_mem_nil) hspelled

end Spelled

end Node

end BundleHook.Markup
