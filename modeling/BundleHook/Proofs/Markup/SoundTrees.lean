import BundleHook.Proofs.Markup.SoundDeclarations

/-!
# Trees of documents

Every tree that a document with namespaces is read as can be written: the events of a document open
elements under sound names and tell legal text, and a tree that grows from such events is sound.
-/

namespace BundleHook.Markup

/-! ## Bindings -/

/-- A namespace that a document can bind. -/
structure IsBindable (uri : Text) : Prop where
  legal : IsLegal uri
  unmarked : uri.any isLabelMark = false
  unreserved : uri ≠ xmlnsUri

def Bindings.IsSound (b : Bindings) : Prop := ∀ entry ∈ b, IsBindable entry.2

theorem Bindings.initial_isSound : Bindings.initial.IsSound := by
  intro entry hentry
  obtain rfl := List.mem_singleton.1 hentry
  exact ⟨by decide, by decide, by decide⟩

theorem Bindings.IsSound.bind {b b' : Bindings} (hb : b.IsSound) {short uri : Text}
    (hlegal : IsLegal uri) (h : b.bind short uri = .ok b') : b'.IsSound := by
  unfold Bindings.bind at h
  simp only at h
  split_ifs at h with hundeclared hxmlns hmark hxml hreserved huri
  obtain rfl := Except.ok.inj h
  intro entry hentry
  rcases List.mem_cons.1 hentry with rfl | hentry
  · exact ⟨hlegal, by simpa using hmark, huri⟩
  · exact hb entry hentry

theorem Bindings.IsSound.find? {b : Bindings} (hb : b.IsSound) {short uri : Text}
    (h : b.find? short = some uri) : IsBindable uri ∧ uri ≠ [] := by
  obtain ⟨found, hfound, h⟩ := Option.bind_eq_some_iff.1 h
  split at h
  · cases h
  · next hempty =>
    obtain rfl := Option.some.inj h
    exact ⟨hb _ (mem_of_lookup hfound), by simpa using hempty⟩

section Names

variable {b : Bindings} (hb : b.IsSound)

include hb

theorem isSound_of_find? {short uri part : Text} (h : b.find? short = some uri)
    (hne : part ≠ []) (hpart : ∀ c ∈ part, isNameMore c = true) : Name.IsSound ⟨uri, part⟩ := by
  obtain ⟨huri, hnil⟩ := hb.find? h
  exact ⟨hne, hpart, fun hempty => absurd hempty hnil, huri.legal, huri.unmarked, huri.unreserved⟩

omit hb in
theorem isSound_of_plain {p : Text} (h : isPlainName p = true) : Name.IsSound ⟨[], p⟩ where
  part_ne_nil := by
    rintro hpart
    simp only at hpart
    rw [hpart] at h
    cases h
  part _ := isNameMore_of_isPlainName h
  plain _ := h
  legal _ hc := absurd hc List.not_mem_nil
  unmarked := rfl
  unreserved := show [] ≠ xmlnsUri by decide

theorem elementName_isSound {word : Text} (hword : IsTagName word) {name : Name}
    (h : b.elementName word = .ok name) : name.IsSound ∧ name.IsSpelled := by
  unfold Bindings.elementName at h
  cases hword with
  | plain hplain =>
      rw [splitName_of_notMem (colon_notMem_of_isPlainName hplain)] at h
      obtain rfl := Except.ok.inj h
      refine ⟨?_, hplain⟩
      cases hfind : b.find? [] with
      | none => exact isSound_of_plain hplain
      | some uri =>
          refine isSound_of_find? hb hfind ?_ fun _ => isNameMore_of_isPlainName hplain
          rintro rfl
          cases hplain
  | @prefixed short part hshort hpart =>
      rw [splitName_prefixed (colon_notMem_of_isPlainName hshort)] at h
      simp only at h
      split at h
      · next uri hfind =>
        obtain rfl := Except.ok.inj h
        refine ⟨isSound_of_find? hb hfind ?_ fun _ => isNameMore_of_isPlainName hpart, hpart⟩
        rintro rfl
        cases hpart
      · cases h

theorem attributeName_isSound {word : Text} (hword : IsDeclaredName word)
    (hdeclared : declaredPrefix? word = none) {name : Name}
    (h : b.attributeName word = .ok name) : name.IsSound ∧ name ≠ ⟨[], "xmlns".toList⟩ := by
  unfold Bindings.attributeName at h
  cases hword with
  | plain hplain =>
      rw [splitName_of_notMem (colon_notMem_of_isPlainName hplain)] at h
      obtain rfl := Except.ok.inj h
      refine ⟨isSound_of_plain hplain, fun heq => ?_⟩
      obtain rfl : word = "xmlns".toList := congrArg Name.part heq
      revert hdeclared
      decide
  | @prefixed short part hshort hne hpart =>
      have hsplit := splitName_prefixed (colon_notMem_of_isPlainName hshort) part
      rw [hsplit] at h
      simp only [Bindings.elementName, hsplit] at h
      split at h
      · next uri hfind =>
        obtain rfl := Except.ok.inj h
        have hsound := isSound_of_find? hb hfind hne hpart
        exact ⟨hsound, fun heq => (hb.find? hfind).2 (congrArg Name.uri heq)⟩
      · cases h

end Names

/-! ## Start tags -/

/-- Attributes as an element of a document can have them. -/
def AreAttributes (attributes : List (Name × Text)) : Prop :=
  (∀ entry ∈ attributes, entry.1.IsSound ∧ entry.1 ≠ ⟨[], "xmlns".toList⟩ ∧ IsLegal entry.2) ∧
    (attributes.map (·.1)).Nodup

def Event.IsSound : Event → Prop
  | opened name attributes => (name.IsSound ∧ name.IsSpelled) ∧ AreAttributes attributes
  | char c => isForbidden c = false
  | comment body => IsComment body ∧ '\r' ∉ body
  | _ => True

def AttributesRead.IsSound (r : AttributesRead) : Prop :=
  r.bindings.IsSound ∧ ∀ entry ∈ r.values, IsDeclaredName entry.1 ∧ IsLegal entry.2

namespace AttributesRead

variable {r r' : AttributesRead}

theorem IsSound.add (h : r.IsSound) {ns : Bool} {written value : Text}
    (hname : IsDeclaredName written) (hvalue : IsLegal value)
    (hadd : r.add ns written value = .ok r') : r'.IsSound := by
  have hvalues : ∀ entry ∈ (written, value) :: r.values,
      IsDeclaredName entry.1 ∧ IsLegal entry.2 := by
    intro entry hentry
    rcases List.mem_cons.1 hentry with rfl | hentry
    · exact ⟨hname, hvalue⟩
    · exact h.2 entry hentry
  unfold AttributesRead.add at hadd
  simp only at hadd
  split at hadd
  · next short _ =>
    cases hbind : r.bindings.bind short value with
    | error flaw =>
        rw [hbind] at hadd
        cases hadd
    | ok bindings =>
        rw [hbind] at hadd
        obtain rfl := Except.ok.inj hadd
        exact ⟨h.1.bind hvalue hbind, hvalues⟩
  · obtain rfl := Except.ok.inj hadd
    exact ⟨h.1, hvalues⟩

theorem IsSound.addWritten (h : r.IsSound) {d : Definitions} {declared : List DeclaredAttribute}
    {tagAt : Nat} {place : Nat → Nat} {raw : RawAttribute} (hraw : raw.IsSound)
    (hadd : r.addWritten d declared tagAt place raw = .ok r') : r'.IsSound := by
  unfold AttributesRead.addWritten at hadd
  split at hadd
  · cases hadd
  · simp only at hadd
    split at hadd
    · cases hadd
    · next value hvalue =>
      exact h.add hraw.1.isDeclaredName (isLegal_valueOf hraw.2 hvalue) (mapError_eq_ok.1 hadd)

theorem IsSound.addDeclared (h : r.IsSound) {ns : Bool} {declared : DeclaredAttribute}
    (hdeclared : declared.IsSound) (hadd : r.addDeclared ns declared = .ok r') : r'.IsSound := by
  unfold AttributesRead.addDeclared at hadd
  split at hadd
  · next value hvalue =>
    split at hadd
    · obtain rfl := Except.ok.inj hadd
      exact h
    · exact h.add hdeclared.1 (hdeclared.2 value hvalue) hadd
  · obtain rfl := Except.ok.inj hadd
    exact h

end AttributesRead

theorem named_areAttributes {b : Bindings} (hb : b.IsSound) {written : List (Text × Text)}
    (hwritten : ∀ entry ∈ written, IsDeclaredName entry.1 ∧ IsLegal entry.2)
    {before attributes : List (Name × Text)} (hbefore : AreAttributes before)
    (h : AttributesRead.named b written before = .ok attributes) : AreAttributes attributes := by
  induction written generalizing before with
  | nil =>
      obtain rfl := Except.ok.inj h
      refine ⟨fun entry hentry => hbefore.1 entry (List.mem_reverse.1 hentry), ?_⟩
      rw [List.map_reverse, List.nodup_reverse]
      exact hbefore.2
  | cons entry written ih =>
      obtain ⟨spelled, value⟩ := entry
      have hrest : ∀ entry ∈ written, IsDeclaredName entry.1 ∧ IsLegal entry.2 :=
        fun other hother => hwritten other (List.mem_cons_of_mem _ hother)
      obtain ⟨hname, hvalue⟩ := hwritten _ List.mem_cons_self
      rw [AttributesRead.named] at h
      split at h
      · exact ih hrest hbefore h
      · next hdeclared =>
        simp only [Option.not_isSome_iff_eq_none] at hdeclared
        split at h
        · cases h
        · next name hread =>
          split at h
          · cases h
          · next hfresh =>
            obtain ⟨hsound, hne⟩ := attributeName_isSound hb hname hdeclared hread
            refine ih hrest ⟨fun other hother => ?_, ?_⟩ h
            · rcases List.mem_cons.1 hother with rfl | hother
              · exact ⟨hsound, hne, hvalue⟩
              · exact hbefore.1 other hother
            · rw [List.map_cons, List.nodup_cons]
              exact ⟨by simpa using hfresh, hbefore.2⟩

/-! ## Contents -/

def Content.IsSound (c : Content) : Prop :=
  c.definitions.IsSound ∧ c.bindings.IsSound ∧ (∀ element ∈ c.opened, element.outer.IsSound) ∧
    ∀ entry ∈ c.events, entry.2.IsSound

namespace Content

variable {c c' : Content}

theorem IsSound.add (h : c.IsSound) (offset : Nat) {event : Event} (hevent : event.IsSound) :
    (c.add offset event).IsSound := by
  refine ⟨h.1, h.2.1, h.2.2.1, fun entry hentry => ?_⟩
  rcases List.mem_cons.1 hentry with rfl | hentry
  · exact hevent
  · exact h.2.2.2 entry hentry

theorem IsSound.openElement (h : c.IsSound) {tagAt : Nat} {place : Nat → Nat} {written : Text}
    {attributes : List RawAttribute} (hwritten : IsTagName written)
    (hattributes : ∀ raw ∈ attributes, raw.IsSound)
    (hopen : c.openElement tagAt place written attributes = .ok c') : c'.IsSound := by
  unfold Content.openElement at hopen
  simp only [bind_eq_ok] at hopen
  obtain ⟨r, hread, ⟨name, attributes', bindings⟩, hnamed, hresult⟩ := hopen
  have hr : r.IsSound := foldlM_keeps (fun r r' raw h hraw => h.addWritten hraw) hattributes
    (s := ⟨[], c.bindings⟩) ⟨h.2.1, fun _ hmem => absurd hmem List.not_mem_nil⟩ hread
  rw [mapError_eq_ok] at hnamed
  simp only [bind_eq_ok] at hnamed
  obtain ⟨r', hdeclared, hnamed⟩ := hnamed
  have hr' : r'.IsSound := foldlM_keeps (fun r r' declared h hdeclared => h.addDeclared hdeclared)
    (h.1.attributesOf written) hr hdeclared
  rw [if_pos h.1.1] at hnamed
  simp only [bind_eq_ok] at hnamed
  obtain ⟨named, hattrs, name', hname, hpair⟩ := hnamed
  obtain ⟨rfl, rfl, rfl⟩ : name' = name ∧ named = attributes' ∧ r'.bindings = bindings := by
    simpa [pure, Except.pure] using hpair
  obtain rfl := Except.ok.inj hresult
  refine ⟨h.1, hr'.1, fun element helement => ?_, fun entry hentry => ?_⟩
  · rcases List.mem_cons.1 helement with rfl | helement
    · exact h.2.1
    · exact h.2.2.1 element helement
  · rcases List.mem_cons.1 hentry with rfl | hentry
    · refine ⟨elementName_isSound hr'.1 hwritten hname, named_areAttributes hr'.1
        (fun entry hentry => hr'.2 entry (List.mem_reverse.1 hentry))
        ⟨fun _ hmem => absurd hmem List.not_mem_nil, .nil⟩ hattrs⟩
    · exact h.2.2.2 entry hentry

theorem IsSound.closeElement (h : c.IsSound) (offset : Nat) : (c.closeElement offset).IsSound := by
  unfold Content.closeElement
  split
  · exact h
  · next element opened hopened =>
    have houter (other : OpenElement) (hother : other ∈ element :: opened) :
        other.outer.IsSound := h.2.2.1 other (hopened ▸ hother)
    refine ⟨h.1, houter element List.mem_cons_self, fun other hother =>
      houter other (List.mem_cons_of_mem element hother), fun entry hentry => ?_⟩
    rcases List.mem_cons.1 hentry with rfl | hentry
    · trivial
    · exact h.2.2.2 entry hentry

theorem takeAll_isSound (take : Content → Nat × Token → Result)
    (htake : ∀ c entry, c.IsSound → entry.2.IsSound → (take c entry).1.IsSound)
    {tokens : List (Nat × Token)} (htokens : ∀ entry ∈ tokens, entry.2.IsSound) (h : c.IsSound) :
    (takeAll take c tokens).1.IsSound := by
  induction tokens generalizing c with
  | nil => exact h
  | cons entry tokens ih =>
      have hentry := htake c entry h (htokens entry List.mem_cons_self)
      rw [takeAll]
      split
      · next next heq =>
        rw [heq] at hentry
        exact ih (fun other hother => htokens other (List.mem_cons_of_mem entry hother)) hentry
      · exact hentry

section Enter

variable {enter : (name text : Text) → Content → Result}

theorem IsSound.takeReference
    (henter : ∀ name text c, Content.IsSound c → (enter name text c).1.IsSound) (h : c.IsSound)
    (offset : Nat) (reference : Reference) : (takeReference enter offset c reference).1.IsSound := by
  unfold Content.takeReference
  split
  · split
    · next d hd => exact h.add offset (isLegal_referredChar? hd)
    · exact h
  · split
    · next d hd => exact h.add offset (isLegal_predefinedEntity? hd)
    · split
      · exact henter _ _ _ h
      · exact h.add offset trivial
      · exact h
      · split
        · exact h
        · exact h.add offset trivial

end Enter

theorem IsSound.takeToken {enter : Nat → (name text : Text) → Content → Result}
    (henter : ∀ offset name text c, Content.IsSound c → (enter offset name text c).1.IsSound)
    (h : c.IsSound) (place : Nat → Nat) (tagNameAt floor : Nat) {entry : Nat × Token}
    (hentry : entry.2.IsSound) : (takeToken enter place tagNameAt floor c entry).1.IsSound := by
  obtain ⟨offset, token⟩ := entry
  unfold Content.takeToken
  simp only
  split
  · split
    · exact h
    · next opened hopened =>
      have hopened := h.openElement hentry.1 hentry.2 hopened
      simp only
      split
      · exact hopened.closeElement _
      · exact hopened
  · split
    · split_ifs
      · exact h
      · exact h.closeElement _
      · exact h
    · exact h
  · exact h.add _ hentry
  · exact h.takeReference (henter _) _ _
  · exact h.add _ hentry
  · exact h
  · exact h

theorem IsSound.takeEntity (budget : Nat) (entered : List Text) (offset : Nat) (name text : Text)
    (h : c.IsSound) : (takeEntity budget entered offset name text c).1.IsSound := by
  induction budget generalizing entered offset name text c with
  | zero => exact h
  | succ budget ih =>
      unfold Content.takeEntity
      split
      · exact h
      · have htokens := Tokens.ofEntity_isSound text
        have hall := takeAll_isSound (c := c)
          (Content.takeToken (Content.takeEntity budget (name :: entered))
            (fun _ => offset) 0 c.opened.length)
          (fun c entry h hentry => h.takeToken
            (fun offset other text c h => ih (name :: entered) offset other text h) _ _ _ hentry)
          htokens h
        simp only [h.1.1]
        split
        · next next heq =>
          rw [heq] at hall
          split
          · exact hall
          · split <;> exact hall
        · exact hall

theorem IsSound.take (h : c.IsSound) {entry : Nat × Token} (hentry : entry.2.IsSound) :
    (c.take entry).1.IsSound :=
  h.takeToken (fun offset name text _ h => h.takeEntity _ _ offset name text) _ _ _ hentry

end Content

/-! ## Readings -/

def Reading.IsSound (r : Reading) : Prop :=
  (∀ entry ∈ r.events, entry.2.IsSound) ∧
    match r.part with
    | .prolog p => p.IsSound
    | .root c => c.IsSound
    | .epilog => True

theorem Reading.IsSound.take {r : Reading} (h : r.IsSound) {entry : Nat × Token}
    (hentry : entry.2.IsSound) : (r.take entry).IsSound := by
  unfold Reading.take
  split
  · exact h
  · have hpart := h.2
    split
    · next p hp =>
      rw [hp] at hpart
      have hnext : (p.step entry.1 entry.2).1.IsSound := Prolog.step_isSound hpart hentry
      have hevents : ∀ other ∈ (r.takeProlog p entry.1 entry.2).events, other.2.IsSound := by
        intro other hother
        rcases mem_takeProlog hother with hother | hother
        · exact h.1 other hother
        · rw [hother]
          trivial
      refine ⟨hevents, ?_⟩
      unfold takeProlog at hevents ⊢
      simp only at hevents ⊢
      split
      · next heq =>
        split at heq
        · cases heq
        · cases heq
          exact hnext
      · next heq =>
        split at heq
        · cases heq
          exact ⟨hnext.1, Bindings.initial_isSound, fun _ hmem => absurd hmem List.not_mem_nil,
            hevents⟩
        · cases heq
      · trivial
    · next c hc =>
      rw [hc] at hpart
      have hnext := Content.IsSound.take hpart hentry
      unfold takeRoot
      refine ⟨hnext.2.2.2, ?_⟩
      simp only
      split
      · next heq => split at heq <;> cases heq
      · next c' heq =>
        split at heq
        · cases heq
        · cases heq
          exact hnext
      · trivial
    · unfold takeEpilog
      split <;> exact ⟨h.1, hpart⟩

theorem Events.ofDocument_isSound (isStrict : Bool) (t : Text) :
    ∀ entry ∈ (Events.ofDocument true isStrict t).list, entry.2.IsSound := by
  have hfold (tokens : List (Nat × Token)) (htokens : ∀ entry ∈ tokens, entry.2.IsSound)
      (r : Reading) (hr : r.IsSound) : (tokens.foldl Reading.take r).IsSound := by
    induction tokens generalizing r with
    | nil => exact hr
    | cons entry tokens ih =>
        exact ih (fun other hother => htokens other (List.mem_cons_of_mem entry hother)) _
          (hr.take (htokens entry List.mem_cons_self))
  have hread := hfold _ (Tokens.ofDocument_isSound t) (.initial true isStrict)
    ⟨fun _ hmem => absurd hmem List.not_mem_nil, Prolog.initial_isSound isStrict⟩
  exact fun entry hentry => hread.1 entry (List.mem_reverse.1 hentry)

/-! ## Growth -/

def OpenNode.IsSound (n : OpenNode) : Prop :=
  ((n.name.IsSound ∧ n.name.IsSpelled) ∧ AreAttributes n.attributes) ∧ IsLegal n.lead ∧
    (∀ child ∈ n.children, child.IsSound) ∧ IsLegal n.pending

/-- The open elements are sound, and the root is a sound element without a tail. -/
def Growth.IsSound (g : Growth) : Prop :=
  (∀ n ∈ g.opened, n.IsSound) ∧
    ∀ root, g.root = some root → root.IsSound ∧ root.IsRoot

theorem isLegal_append {t t' : Text} (h : IsLegal t) (h' : IsLegal t') : IsLegal (t ++ t') := by
  intro c hc
  rcases List.mem_append.1 hc with hc | hc
  · exact h c hc
  · exact h' c hc

theorem isLegal_reverse {t : Text} (h : IsLegal t) : IsLegal t.reverse :=
  fun c hc => h c (List.mem_reverse.1 hc)

namespace OpenNode

variable {n : OpenNode}

theorem IsSound.settle (h : n.IsSound) : n.settle.IsSound := by
  obtain ⟨hhead, hlead, hchildren, hpending⟩ := h
  unfold OpenNode.settle
  split
  · exact ⟨hhead, isLegal_append hlead (isLegal_reverse hpending), hchildren,
      fun _ hmem => absurd hmem List.not_mem_nil⟩
  · next last others heq =>
    refine ⟨hhead, hlead, fun child hchild => ?_, fun _ hmem => absurd hmem List.not_mem_nil⟩
    rcases List.mem_cons.1 hchild with rfl | hchild
    · have hlast := hchildren last (heq ▸ List.mem_cons_self)
      exact hlast.withTail (isLegal_append hlast.tail (isLegal_reverse hpending))
    · exact hchildren child (heq ▸ List.mem_cons_of_mem last hchild)

theorem IsSound.addChild (h : n.IsSound) {child : Node} (hchild : child.IsSound) :
    (n.addChild child).IsSound := by
  obtain ⟨hhead, hlead, hchildren, hpending⟩ := h.settle
  refine ⟨hhead, hlead, fun other hother => ?_, hpending⟩
  rcases List.mem_cons.1 hother with rfl | hother
  · exact hchild
  · exact hchildren other hother

theorem IsSound.close (h : n.IsSound) : n.close.IsSound := by
  obtain ⟨⟨⟨hname, hspelled⟩, hattributes⟩, hlead, hchildren, -⟩ := h.settle
  exact .element hname hspelled hattributes.1 hattributes.2 hlead
    (fun child hchild => hchildren child (List.mem_reverse.1 hchild))
    fun _ hmem => absurd hmem List.not_mem_nil

end OpenNode

theorem Growth.IsSound.take {g : Growth} (h : g.IsSound) {event : Event} (hevent : event.IsSound) :
    (g.take event).IsSound := by
  obtain ⟨hopened, hroot⟩ := h
  have hcons {n : OpenNode} {others : List OpenNode} (hn : n.IsSound)
      (hothers : ∀ other ∈ others, other.IsSound) : ∀ other ∈ n :: others, other.IsSound := by
    intro other hother
    rcases List.mem_cons.1 hother with rfl | hother
    · exact hn
    · exact hothers other hother
  unfold Growth.take
  split
  · refine ⟨hcons ⟨hevent, fun _ hmem => absurd hmem List.not_mem_nil,
      fun _ hmem => absurd hmem List.not_mem_nil, fun _ hmem => absurd hmem List.not_mem_nil⟩
      hopened, hroot⟩
  · next n heq =>
    refine ⟨fun _ hmem => absurd hmem List.not_mem_nil, fun root hsome => ?_⟩
    obtain rfl := Option.some.inj hsome
    exact ⟨(hopened n (heq ▸ List.mem_cons_self)).close, _, _, _, _, rfl⟩
  · next n outer others heq =>
    have hn := hopened n (heq ▸ List.mem_cons_self)
    have houter := hopened outer (heq ▸ by simp)
    exact ⟨hcons (houter.addChild hn.close) fun other hother =>
      hopened other (heq ▸ by simp [hother]), hroot⟩
  · next c n others heq =>
    obtain ⟨hhead, hlead, hchildren, hpending⟩ := hopened n (heq ▸ List.mem_cons_self)
    exact ⟨hcons ⟨hhead, hlead, hchildren, isLegal_cons hevent hpending⟩ fun other hother =>
      hopened other (heq ▸ List.mem_cons_of_mem n hother), hroot⟩
  · next body n others heq =>
    have hn := hopened n (heq ▸ List.mem_cons_self)
    have hcomment : (Node.comment body []).IsSound :=
      .comment hevent.1.body hevent.1.legal hevent.2 fun _ hmem => absurd hmem List.not_mem_nil
    exact ⟨hcons (hn.addChild hcomment) fun other hother =>
      hopened other (heq ▸ List.mem_cons_of_mem n hother), hroot⟩
  · exact ⟨hopened, hroot⟩

/-- The root of a document is a sound element without a tail. -/
theorem Node.isSound_of_ofDocument {t : Text} {root : Node} (h : Node.ofDocument t = .ok root) :
    root.IsSound ∧ root.IsRoot := by
  have hfold (events : List Event) (hevents : ∀ event ∈ events, event.IsSound) (g : Growth)
      (hg : g.IsSound) : (events.foldl Growth.take g).IsSound := by
    induction events generalizing g with
    | nil => exact hg
    | cons event events ih =>
        exact ih (fun other hother => hevents other (List.mem_cons_of_mem event hother)) _
          (hg.take (hevents event List.mem_cons_self))
  unfold Node.ofDocument at h
  simp only [foldl_take] at h
  split at h
  · cases h
  · split at h
    · next found hfound =>
      obtain rfl := Except.ok.inj h
      exact (hfold _ (List.forall_mem_map.2 (Events.ofDocument_isSound true _)) .initial
        ⟨fun _ hmem => absurd hmem List.not_mem_nil, fun _ hnone => by cases hnone⟩).2 _ hfound
    · cases h

end BundleHook.Markup
