import BundleHook.Proofs.Markup.Retelling
import BundleHook.Resource.StringTable

/-!
# Trees grown from their events

The events of a tree grow the tree again, with its line ends unified. A document that is written for
a tree is thus read as the tree, or not at all.
-/

namespace BundleHook.Markup

namespace Node

mutual

/-- The tree with its line ends unified, as a document is read. -/
def unified : Node → Node
  | element name attributes lead children tail =>
    element name attributes (Text.unifyLines lead) (allUnified children) (Text.unifyLines tail)
  | comment body tail => comment (Text.unifyLines body) (Text.unifyLines tail)

def allUnified : List Node → List Node
  | [] => []
  | node :: others => node.unified :: allUnified others

end

theorem allUnified_eq (nodes : List Node) : allUnified nodes = nodes.map unified := by
  induction nodes with
  | nil => rfl
  | cons node nodes ih => rw [allUnified, ih, List.map_cons]

end Node

/-! ## Growth -/

namespace OpenNode

/-- Text behind everything that the element has so far. -/
def addText (n : OpenNode) (t : Text) : OpenNode := { n with pending := t.reverse ++ n.pending }

/-- The element with a child behind everything that it has so far. -/
def addNode (n : OpenNode) (node : Node) : OpenNode :=
  (n.addChild (node.withTail [])).addText node.tail

theorem settle_addText_addChild (n : OpenNode) (child : Node) (t : Text) :
    ((n.addChild child).addText t).settle =
      { n.settle with children := child.withTail (child.tail ++ t) :: n.settle.children } := by
  cases hchildren : n.children <;> simp [addChild, settle, addText, hchildren]

theorem close_eq (n : OpenNode) : n.close =
    .element n.settle.name n.settle.attributes n.settle.lead n.settle.children.reverse [] := rfl

end OpenNode

theorem foldl_chars (g : Growth) {n : OpenNode} {others : List OpenNode}
    (hopened : g.opened = n :: others) (t : Text) :
    (t.map Event.char).foldl Growth.take g = { g with opened := n.addText t :: others } := by
  induction t generalizing g n with
  | nil => simp [OpenNode.addText, ← hopened]
  | cons c t ih =>
      have hstep : g.take (.char c) = { g with opened := n.addText [c] :: others } := by
        simp [Growth.take, hopened, OpenNode.addText]
      rw [List.map_cons, List.foldl_cons, hstep, ih _ rfl]
      simp [OpenNode.addText]

/-- What the events of a whole element leave open: nothing of its own. -/
theorem foldl_element (g : Growth) (name : Name) (attributes : List (Name × Text)) (lead : Text)
    {children : List Node}
    (hchildren : ∀ (g : Growth) (n : OpenNode) (others : List OpenNode), g.opened = n :: others →
      ∃ n', (Node.allEvents children).foldl Growth.take g = { g with opened := n' :: others } ∧
        n'.settle =
          { n.settle with children := (Node.allUnified children).reverse ++ n.settle.children }) :
    ∃ n, (Node.element name attributes lead children []).events.foldl Growth.take g =
        ({ g with opened := n :: g.opened } : Growth).take .closed ∧
      n.close = (Node.element name attributes lead children []).unified := by
  obtain ⟨n, hfold, hsettle⟩ := hchildren
    { g with opened := OpenNode.addText ⟨name, attributes, [], [], []⟩ (Text.unifyLines lead) ::
      g.opened } _ _ rfl
  refine ⟨n, ?_, ?_⟩
  · have hopen : g.take (.opened name attributes) =
        { g with opened := ⟨name, attributes, [], [], []⟩ :: g.opened } := by
      cases hopened : g.opened <;> simp [Growth.take, hopened]
    have hempty : Node.textEvents [] = [] := rfl
    simp only [Node.events, hempty, List.append_nil, List.cons_append, List.foldl_cons,
      List.foldl_append, List.foldl_nil, hopen]
    rw [Node.textEvents, foldl_chars _ rfl, hfold]
  · rw [OpenNode.close_eq, hsettle, Node.unified]
    simp [OpenNode.addText, OpenNode.settle, Text.unifyLines]

mutual

/-- The events of a node add the node to the innermost open element. -/
theorem foldl_events (node : Node) (g : Growth) (n : OpenNode) (others : List OpenNode)
    (hopened : g.opened = n :: others) :
    ∃ n', node.events.foldl Growth.take g = { g with opened := n' :: others } ∧
      n'.settle = { n.settle with children := node.unified :: n.settle.children } := by
  cases node with
  | element name attributes lead children tail =>
      obtain ⟨inner, hfold, hclose⟩ := foldl_element g name attributes lead
        (foldl_allEvents children)
      have hclosed : ({ g with opened := inner :: g.opened } : Growth).take .closed =
          { g with opened := n.addChild inner.close :: others } := by
        simp [Growth.take, hopened]
      have hevents : (Node.element name attributes lead children tail).events =
          (Node.element name attributes lead children []).events ++ Node.textEvents tail := by
        simp [Node.events, Node.textEvents, Text.unifyLines]
      refine ⟨(n.addChild inner.close).addText (Text.unifyLines tail), ?_, ?_⟩
      · rw [hevents, List.foldl_append, hfold, hclosed, Node.textEvents, foldl_chars _ rfl]
      · rw [OpenNode.settle_addText_addChild, hclose]
        rfl
  | comment body tail =>
      have hcomment : g.take (.comment (Text.unifyLines body)) =
          { g with opened := n.addChild (.comment (Text.unifyLines body) []) :: others } := by
        simp [Growth.take, hopened]
      refine ⟨(n.addChild (.comment (Text.unifyLines body) [])).addText (Text.unifyLines tail),
        ?_, ?_⟩
      · rw [Node.events, List.foldl_cons, hcomment, Node.textEvents, foldl_chars _ rfl]
      · rw [OpenNode.settle_addText_addChild]
        rfl

theorem foldl_allEvents (nodes : List Node) (g : Growth) (n : OpenNode) (others : List OpenNode)
    (hopened : g.opened = n :: others) :
    ∃ n', (Node.allEvents nodes).foldl Growth.take g = { g with opened := n' :: others } ∧
      n'.settle =
        { n.settle with children := (Node.allUnified nodes).reverse ++ n.settle.children } := by
  cases nodes with
  | nil =>
      refine ⟨n, ?_, rfl⟩
      rw [Node.allEvents, List.foldl_nil, ← hopened]
  | cons node nodes =>
      obtain ⟨n₁, hfold₁, hsettle₁⟩ := foldl_events node g n others hopened
      obtain ⟨n₂, hfold₂, hsettle₂⟩ :=
        foldl_allEvents nodes { g with opened := n₁ :: others } n₁ others rfl
      refine ⟨n₂, ?_, ?_⟩
      · rw [Node.allEvents, List.foldl_append, hfold₁, hfold₂]
      · rw [hsettle₂, hsettle₁, Node.allUnified, List.reverse_cons, List.append_assoc,
          List.singleton_append]

end

/-- The events of a whole tree grow the tree. -/
theorem root_of_events {name : Name} {attributes : List (Name × Text)} {lead : Text}
    {children : List Node} :
    ((Node.element name attributes lead children []).events.foldl Growth.take .initial).root =
      some (Node.element name attributes lead children []).unified := by
  obtain ⟨n, hfold, hclose⟩ := foldl_element .initial name attributes lead
    (foldl_allEvents children)
  rw [hfold, ← hclose]
  rfl

/-! ## No marks of unreadable octets -/

theorem withoutMarks_of_notMem {t : Text} (h : cutOff ∉ t) : withoutMarks t = t := by
  have hsame : ∀ c ∈ t, (if c = cutOff then garbled else c) = id c := fun c hc =>
    if_neg fun heq : c = cutOff => h (heq ▸ hc)
  rw [withoutMarks, List.map_congr_left hsame, List.map_id]

theorem cutOff_notMem_of_isLegal {t : Text} (h : IsLegal t) : cutOff ∉ t := fun hmem => by
  have hlegal := h cutOff hmem
  revert hlegal
  decide

theorem cutOff_notMem_of_isNameMore {t : Text} (h : ∀ c ∈ t, isNameMore c = true) : cutOff ∉ t :=
  fun hmem => by
    have hmore := h cutOff hmem
    revert hmore
    decide

theorem cutOff_notMem_escape {c : Char} (h : c ≠ cutOff) :
    cutOff ∉ escapeInText c ∧ cutOff ∉ escapeInValue c := by
  have hself : cutOff ∉ [c] := by simpa using h.symm
  have htext : cutOff ∉ escapeInText c := by
    unfold escapeInText
    split
    · decide
    split
    · decide
    split
    · decide
    · exact hself
  refine ⟨htext, ?_⟩
  unfold escapeInValue
  split
  · decide
  split
  · decide
  split
  · decide
  split
  · decide
  · exact htext

theorem cutOff_notMem_escapeInText {t : Text} (h : IsLegal t) :
    cutOff ∉ t.flatMap escapeInText := by
  intro hmem
  obtain ⟨c, hc, hmem⟩ := List.mem_flatMap.1 hmem
  exact (cutOff_notMem_escape fun heq => cutOff_notMem_of_isLegal h (heq ▸ hc)).1 hmem

theorem cutOff_notMem_escapeInValue {t : Text} (h : IsLegal t) :
    cutOff ∉ t.flatMap escapeInValue := by
  intro hmem
  obtain ⟨c, hc, hmem⟩ := List.mem_flatMap.1 hmem
  exact (cutOff_notMem_escape fun heq => cutOff_notMem_of_isLegal h (heq ▸ hc)).2 hmem

theorem cutOff_notMem_writeAttributes {written : List (Text × Text)}
    (h : ∀ entry ∈ written, cutOff ∉ entry.1 ∧ IsLegal entry.2) :
    cutOff ∉ writeAttributes written := by
  intro hmem
  obtain ⟨entry, hentry, hmem⟩ := List.mem_flatMap.1 hmem
  obtain ⟨hname, hvalue⟩ := h entry hentry
  have hvalue := cutOff_notMem_escapeInValue hvalue
  have hsigns : cutOff ≠ ' ' ∧ cutOff ≠ '=' ∧ cutOff ≠ '"' := by decide
  simp [writeAttribute, hname, hvalue, hsigns] at hmem

section Written

variable {d : Declarations} {b : Bindings} (hb : b.Serves d)

include hb

theorem cutOff_notMem_writeName {name : Name} (hd : d.Covers name) (h : name.IsSound) :
    cutOff ∉ d.write name := by
  have hpart := cutOff_notMem_of_isNameMore h.part
  rcases write_cases hb hd with ⟨-, hwrite⟩ | ⟨short, hshort, -, -, hwrite⟩
  · rwa [hwrite]
  · rw [hwrite]
    have hshort := cutOff_notMem_of_isNameMore fun _ hc => isNameMore_of_isPlainName hshort hc
    have hcolon : cutOff ≠ ':' := by decide
    simp [hpart, hshort, hcolon]

omit hb in
theorem cutOff_notMem_writeAll {nodes : List Node} (h : ∀ node ∈ nodes, cutOff ∉ node.write d []) :
    cutOff ∉ Node.writeAll d nodes := by
  induction nodes with
  | nil => exact List.not_mem_nil
  | cons node nodes ih =>
      rw [Node.writeAll, List.mem_append, not_or]
      exact ⟨h node List.mem_cons_self, ih fun other hother =>
        h other (List.mem_cons_of_mem node hother)⟩

theorem cutOff_notMem_write {node : Node} (h : node.IsSound)
    (hcovers : ∀ name ∈ node.names, d.Covers name) {declared : List (Text × Text)}
    (hdeclared : ∀ entry ∈ declared, cutOff ∉ entry.1 ∧ IsLegal entry.2) :
    cutOff ∉ node.write d (writeAttributes declared) := by
  have hsigns : cutOff ≠ '<' ∧ cutOff ≠ '>' ∧ cutOff ≠ '/' ∧ cutOff ≠ ' ' ∧ cutOff ≠ '!' ∧
      cutOff ≠ '-' := by decide
  induction h generalizing declared with
  | @element name attributes lead tail children hname _ hattributes _ hlead _ htail ih =>
      have hwritten := cutOff_notMem_writeName hb (hcovers name (Node.mem_names_element.2 (.inl rfl)))
        hname
      have hall : cutOff ∉ writeAttributes (declared ++ d.writeNames attributes) := by
        refine cutOff_notMem_writeAttributes fun entry hentry => ?_
        rcases List.mem_append.1 hentry with hentry | hentry
        · exact hdeclared entry hentry
        · obtain ⟨source, hsource, rfl⟩ := List.mem_map.1 hentry
          obtain ⟨hsound, -, hlegal⟩ := hattributes source hsource
          exact ⟨cutOff_notMem_writeName hb (hcovers source.1 (Node.mem_names_element.2
            (.inr (.inl (List.mem_map_of_mem hsource))))) hsound, hlegal⟩
      have hinside : cutOff ∉ Node.writeAll d children := by
        refine cutOff_notMem_writeAll fun child hchild => ?_
        have hnone : ∀ entry ∈ ([] : List (Text × Text)), cutOff ∉ entry.1 ∧ IsLegal entry.2 :=
          fun _ hmem => absurd hmem List.not_mem_nil
        exact ih child hchild (fun other hother => hcovers other
          (Node.mem_names_element.2 (.inr (.inr ⟨child, hchild, hother⟩)))) hnone
      have hlead := cutOff_notMem_escapeInText hlead
      have htail := cutOff_notMem_escapeInText htail
      rw [Node.write_element]
      split <;> simp [hwritten, hall, hinside, hlead, htail, hsigns]
  | @comment body tail hbody hlegal _ htail =>
      have hbody := cutOff_notMem_of_isLegal hlegal
      have htail := cutOff_notMem_escapeInText htail
      simp [Node.write, hbody, htail, hsigns]

end Written

/-! ## Documents -/

theorem Events.skippedFault?_eq_none {events : Events}
    (h : ∀ name, Event.skipped name ∉ events.list.map (·.2)) : events.skippedFault? = none := by
  rw [skippedFault?, List.findSome?_eq_none_iff]
  rintro ⟨offset, event⟩ hentry
  cases event with
  | skipped name => exact absurd (List.mem_map_of_mem hentry) (h name)
  | _ => rfl

namespace Node

mutual

theorem skipped_notMem_events (node : Node) (name : Text) : Event.skipped name ∉ node.events := by
  cases node with
  | element _ _ _ children _ =>
      have hchildren := skipped_notMem_allEvents children name
      simp [events, textEvents, hchildren]
  | comment _ _ => simp [events, textEvents]

theorem skipped_notMem_allEvents (nodes : List Node) (name : Text) :
    Event.skipped name ∉ allEvents nodes := by
  cases nodes with
  | nil => exact List.not_mem_nil
  | cons node nodes =>
      rw [allEvents, List.mem_append, not_or]
      exact ⟨skipped_notMem_events node name, skipped_notMem_allEvents nodes name⟩

end

/-- What may stand before the root of a written document: nothing, or its declaration. -/
theorem scans_head {head : Text} (h : head = [] ∨ head = StringTable.declaration) :
    ∃ s, (Lexer.initial true).Scans head s ∧ s.IsBeforeRoot true (.initial true) := by
  rcases h with rfl | rfl
  · exact ⟨_, .nil _, Lexer.isBeforeRoot_initial true⟩
  · exact ⟨_, by unfold Lexer.Scans; rfl, ⟨rfl, rfl, .inr rfl, fun _ => rfl⟩⟩

section Documents

variable {head : Text} (hhead : head = [] ∨ head = StringTable.declaration) {root : Node}
  (hsound : root.IsSound)

theorem render_eq (root : Node) : root.render = root.write (Declarations.ofNames root.names)
    (writeAttributes (Declarations.ofNames root.names).attributes) := by
  rw [render, ofNode_eq, Declarations.writeAll_eq]

include hhead hsound

theorem withoutMarks_render :
    withoutMarks (head ++ root.render ++ ['\n']) = head ++ root.render ++ ['\n'] := by
  have hdecls := Declarations.isSound_ofNames hsound.names
  have hrender : cutOff ∉ root.render := by
    rw [render_eq]
    refine cutOff_notMem_write hdecls.serves hsound (fun _ => Declarations.covers_ofNames)
      fun entry hentry => ?_
    obtain ⟨hname, hlegal⟩ := hdecls.attributes_written hentry
    refine ⟨fun hmem => ?_, hlegal⟩
    have hmore := hname.isNameMore_or_colon cutOff hmem
    revert hmore
    decide
  have hfeed : cutOff ≠ '\n' := by decide
  have hhead : cutOff ∉ head := by
    rcases hhead with rfl | rfl
    · exact List.not_mem_nil
    · decide
  exact withoutMarks_of_notMem (by simp [hhead, hrender, hfeed])

variable (hroot : root.IsRoot)

include hroot

/-- A tree whose names are spelled out is read again with its line ends unified. -/
theorem ofDocument_render (hspelled : root.IsSpelled) :
    Node.ofDocument (head ++ root.render ++ ['\n']) = .ok root.unified := by
  have hdecls := Declarations.isSound_ofNames hsound.names
  have hcovers : ∀ other ∈ root.names, (Declarations.ofNames root.names).Covers other :=
    fun _ => Declarations.covers_ofNames
  have htells : TellsElement true (.initial true) .initial [] root.render root.events := by
    rw [render_eq]
    obtain ⟨name, attributes, lead, children, rfl⟩ := hroot
    refine hsound.tellsElement hdecls.serves hdecls.declare hcovers (fun entry hentry => hspelled
      entry.1 (mem_names_element.2 (.inr (.inl (List.mem_map_of_mem hentry))))) ?_
    intro opened hopened
    cases hsound with
    | element _ _ _ _ hlead hchildren _ =>
    refine (tells_text hopened hlead).append (tells_writeAll fun child hchild behindText => ?_)
    have hnames (other : Name) (hother : other ∈ child.names) :
        other ∈ (Node.element name attributes lead children []).names :=
      mem_names_element.2 (.inr (.inr ⟨child, hchild, hother⟩))
    exact IsSound.tells hdecls.serves (hchildren child hchild)
      (fun other hother => hspelled other (hnames other hother))
      (fun other hother => hcovers other (hnames other hother)) hopened behindText
  obtain ⟨s, hscan, hs⟩ := scans_head hhead
  obtain ⟨list, hevents, hlist⟩ := htells.ofDocument hscan hs
  have hskipped : Events.skippedFault? ⟨list, none⟩ = none :=
    Events.skippedFault?_eq_none fun name => hlist ▸ skipped_notMem_events _ name
  have hfold : (root.events.foldl Growth.take Growth.initial).root = some root.unified := by
    obtain ⟨name, attributes, lead, children, rfl⟩ := hroot
    exact root_of_events
  rw [Node.ofDocument, withoutMarks_render hhead hsound]
  have hns : (Definitions.initial true).namespaces = true := rfl
  rw [hns] at hevents
  simp only [hevents, hskipped, Option.or_none, foldl_take, hlist, hfold]

/-- A tree with a name that is not spelled out is written as something that is no document. -/
theorem ofDocument_render_of_not_isSpelled (hspelled : ¬root.IsSpelled) :
    ∃ fault, Node.ofDocument (head ++ root.render ++ ['\n']) = .error fault := by
  have hdecls := Declarations.isSound_ofNames hsound.names
  have hcovers : ∀ other ∈ root.names, (Declarations.ofNames root.names).Covers other :=
    fun _ => Declarations.covers_ofNames
  have hbreaks : BreaksElement true (.initial true) .initial [] root.render := by
    rw [render_eq]
    obtain ⟨name, attributes, lead, children, rfl⟩ := hroot
    refine hsound.breaksElement hdecls.serves hdecls.declare hcovers hspelled
      fun child hchild hspelled opened hopened behindText => ?_
    cases hsound with
    | element _ _ _ _ _ hchildren _ =>
    exact IsSound.breaks hdecls.serves (hchildren child hchild) hspelled (fun other hother =>
      hcovers other (mem_names_element.2 (.inr (.inr ⟨child, hchild, hother⟩)))) hopened behindText
  obtain ⟨s, hscan, hs⟩ := scans_head hhead
  have hfault := hbreaks.ofDocument hscan hs
  obtain ⟨fault, hfault⟩ := Option.ne_none_iff_exists'.1 hfault
  have hns : (Definitions.initial true).namespaces = true := rfl
  rw [hns] at hfault
  rw [Node.ofDocument, withoutMarks_render hhead hsound]
  cases hskipped : (Events.ofDocument true true (head ++ root.render ++ ['\n'])).skippedFault? with
  | none => exact ⟨fault, by simp only [hfault, Option.none_or]⟩
  | some skipped => exact ⟨skipped, by simp only [Option.some_or]⟩

end Documents

end Node

end BundleHook.Markup
