import BundleHook.PropertyList.Draft
import BundleHook.PropertyList.Rendering
import BundleHook.Proofs.Markup.Regrowth
import BundleHook.Proofs.Markup.SoundTokens
import BundleHook.Proofs.Number.Numeral
import BundleHook.Proofs.PropertyList.Base64
import BundleHook.Proofs.PropertyList.Date
import BundleHook.Proofs.PropertyList.Setting

/-!
# Written values are read again

A value that is written among the elements of a document is read as the value it was written for,
with its line ends unified, and is placed where the reading stands: behind its key, into its array,
or as the value of the document.
-/

namespace BundleHook.PropertyList

open Markup

/-! ## Parts of a value -/

/-- A value is a part of another one, a key being one as a text. -/
inductive Value.HasPart : Value → Value → Prop where
  | self (value : Value) : HasPart value value
  | item {items : List Value} {item part : Value} (hitem : item ∈ items)
      (hpart : HasPart item part) : HasPart (.array items) part
  | key {entries : List (Text × Value)} {entry : Text × Value} (hentry : entry ∈ entries) :
      HasPart (.dictionary entries) (.text entry.1)
  | value {entries : List (Text × Value)} {entry : Text × Value} {part : Value}
      (hentry : entry ∈ entries) (hpart : HasPart entry.2 part) :
      HasPart (.dictionary entries) part

/-- All parts of a value are so. -/
def Value.Every (P : Value → Prop) (value : Value) : Prop := ∀ part, value.HasPart part → P part

/-- The text holds neither of the two code points that stand for unreadable octets. -/
def HasNoMark (t : Text) : Prop := cutOff ∉ t ∧ garbled ∉ t

/-- What the parts of a value are like that is read from markup. -/
def Value.IsSound : Value → Prop
  | .text t => HasNoMark t
  | .date d => d.check = .ok d
  | .dictionary entries => (entries.map (·.1)).Nodup
  | _ => True

section Every

variable {P : Value → Prop}

theorem every_array {items : List Value} :
    (Value.array items).Every P ↔ P (.array items) ∧ ∀ item ∈ items, item.Every P := by
  refine ⟨fun h => ⟨h _ (.self _), fun item hitem part hpart => h part (.item hitem hpart)⟩,
    fun h part hpart => ?_⟩
  cases hpart with
  | self => exact h.1
  | item hitem hpart => exact h.2 _ hitem part hpart

theorem every_dictionary {entries : List (Text × Value)} :
    (Value.dictionary entries).Every P ↔
      P (.dictionary entries) ∧ ∀ entry ∈ entries, P (.text entry.1) ∧ entry.2.Every P := by
  refine ⟨fun h => ⟨h _ (.self _), fun entry hentry =>
    ⟨h _ (.key hentry), fun part hpart => h part (.value hentry hpart)⟩⟩, fun h part hpart => ?_⟩
  cases hpart with
  | self => exact h.1
  | key hentry => exact (h.2 _ hentry).1
  | value hentry hpart => exact (h.2 _ hentry).2 part hpart

/-- A value without parts is its own only part. -/
theorem every_leaf {value : Value} (harray : ∀ items, value ≠ .array items)
    (hdictionary : ∀ entries, value ≠ .dictionary entries) : value.Every P ↔ P value := by
  refine ⟨fun h => h _ (.self _), fun h part hpart => ?_⟩
  cases hpart with
  | self => exact h
  | item => exact absurd rfl (harray _)
  | key => exact absurd rfl (hdictionary _)
  | value => exact absurd rfl (hdictionary _)

end Every

mutual

/-- The value that the markup of a value is read as. -/
def Value.reread : Value → Value
  | .text t => .text (Text.unifyLines t)
  | .real x => .real ((Numeral.real? x.text.toList).getD x)
  | .array items => .array (rereadItems items)
  | .dictionary entries => .dictionary (rereadEntries [] entries)
  | value => value

def rereadItems : List Value → List Value
  | [] => []
  | item :: others => item.reread :: rereadItems others

/-- Entries that are read behind others. -/
def rereadEntries (before : List (Text × Value)) : List (Text × Value) → List (Text × Value)
  | [] => before
  | (key, value) :: others =>
    rereadEntries (setEntry (Text.unifyLines key) value.reread before) others

end

/-! ## Drafts -/

namespace Draft

/-- A value may stand here. -/
def Accepts (d : Draft) : Prop := ∀ document offset, d.allowsValue document offset = .ok ()

/-- The draft with a value in its place. -/
def put (d : Draft) (value : Value) : Draft := { d with key := none }.place d.key value

def withText (d : Draft) (text : Text) : Draft := { d with text }

variable {d d' d'' : Draft}

theorem place_withText (key : Option Text) (value : Value) (text : Text) :
    (d.withText text).place key value = (d.place key value).withText text := by
  unfold place withText
  dsimp only
  split <;> rfl

theorem add_eq_put (h : d.Accepts) (value : Value) (text : Text) (document : Text)
    (offset : Nat) :
    (d.withText text).add document offset value = .ok ((d.put value).withText text) := by
  have hallows : (d.withText text).allowsValue document offset = .ok () := h document offset
  rw [add, hallows]
  exact congrArg Except.ok (place_withText (d := { d with key := none }) d.key value text)

/-- These events lead from one draft to another, whatever text was read before them. -/
def Takes (events : List Event) (d d' : Draft) : Prop :=
  ∀ (document : Text) (list : List (Nat × Event)) (text : Text), list.map (·.2) = events →
    ∃ text', list.foldlM (take document) (d.withText text) = .ok (d'.withText text')

theorem Takes.append {events events' : List Event} (h : Takes events d d')
    (h' : Takes events' d' d'') : Takes (events ++ events') d d'' := by
  intro document list text hlist
  obtain ⟨before, behind, rfl, hbefore, hbehind⟩ := List.map_eq_append_iff.1 hlist
  obtain ⟨text₁, hfold⟩ := h document before text hbefore
  obtain ⟨text₂, hfold'⟩ := h' document behind text₁ hbehind
  exact ⟨text₂, by rw [List.foldlM_append, hfold]; exact hfold'⟩

theorem foldlM_chars (document : Text) {list : List (Nat × Event)} {chars : Text}
    (hlist : list.map (·.2) = chars.map .char) (text : Text) :
    list.foldlM (take document) (d.withText text) = .ok (d.withText (chars.reverse ++ text)) := by
  induction chars generalizing list text with
  | nil =>
      obtain rfl := List.map_eq_nil_iff.1 hlist
      rfl
  | cons c chars ih =>
      obtain ⟨entry, others, rfl, hevent, hothers⟩ := List.map_eq_cons_iff.1 hlist
      obtain ⟨offset, event⟩ := entry
      obtain rfl : event = .char c := hevent
      rw [List.foldlM_cons]
      refine (ih hothers (c :: text)).trans ?_
      simp

theorem takes_chars (d : Draft) (chars : Text) : Takes (chars.map .char) d d :=
  fun document _ text hlist => ⟨_, foldlM_chars document hlist text⟩

/-- The draft inside an element. -/
def within (d : Draft) (word : Text) : Draft := { d with elements := word :: d.elements }

/-- An element is opened, what is inside of it is taken, and it is closed. -/
theorem takes_element {word : Text} {attributes : List (Name × Text)} {events : List Event}
    (inner filled : Draft)
    (hopen : ∀ document offset text, (d.withText text).take document
      (offset, .opened ⟨[], word⟩ attributes) = .ok ((inner.within word).withText []))
    (hinside : ∀ document (list : List (Nat × Event)), list.map (·.2) = events → ∃ text,
      list.foldlM (take document) ((inner.within word).withText []) =
          .ok ((filled.within word).withText text) ∧
        ∀ offset, ∃ text', (filled.withText text).closeElement document offset word =
          .ok (d'.withText text')) :
    Takes (.opened ⟨[], word⟩ attributes :: events ++ [.closed]) d d' := by
  intro document list text hlist
  obtain ⟨before, last, rfl, hbefore, hlast⟩ := List.map_eq_append_iff.1 hlist
  obtain ⟨⟨offset, event⟩, others, rfl, hopened, hothers⟩ := List.map_eq_cons_iff.1 hbefore
  obtain rfl : event = .opened ⟨[], word⟩ attributes := hopened
  obtain ⟨⟨stop, event⟩, none, rfl, hclosed, hnone⟩ := List.map_eq_cons_iff.1 hlast
  obtain rfl : event = .closed := hclosed
  obtain rfl := List.map_eq_nil_iff.1 hnone
  obtain ⟨read, hfold, hclose⟩ := hinside document others hothers
  obtain ⟨text', hclose⟩ := hclose stop
  refine ⟨text', ?_⟩
  rw [List.foldlM_append, List.foldlM_cons, hopen, ok_bind, hfold, ok_bind, List.foldlM_cons]
  have htake : take document ((filled.within word).withText read) (stop, .closed) =
      (filled.withText read).closeElement document stop word := rfl
  rw [htake, hclose]
  rfl

/-- An element that opens no container is taken at its end, with the text inside of it. -/
theorem takes_leaf {word : Text} (hdict : word ≠ "dict".toList) (harray : word ≠ "array".toList)
    {attributes : List (Name × Text)} (content : Text)
    (hclose : ∀ document offset, ∃ text',
      (d.withText content.reverse).closeElement document offset word = .ok (d'.withText text')) :
    Takes (.opened ⟨[], word⟩ attributes :: content.map .char ++ [.closed]) d d' := by
  refine takes_element d d (fun document offset text => ?_)
    fun document list hlist => ⟨content.reverse, ?_, hclose document⟩
  · simp only [take, if_neg hdict, if_neg harray]
    rfl
  · simpa using foldlM_chars (d := d.within word) document hlist []

theorem closeElement_leaf (haccepts : d.Accepts) {word content : Text} {value : Value}
    (hkind : word ≠ "dict".toList ∧ word ≠ "array".toList ∧ word ≠ "key".toList)
    (hflag : flag? word = none) (hleaf : leaf? word content = some (.ok value))
    (document : Text) (offset : Nat) :
    (d.withText content.reverse).closeElement document offset word =
      .ok ((d.put value).withText []) := by
  have hcontent : (d.withText content.reverse).text.reverse = content := List.reverse_reverse _
  rw [closeElement, if_neg hkind.1, if_neg hkind.2.1, if_neg hkind.2.2, hcontent, hflag,
    hleaf]
  exact add_eq_put haccepts value [] document offset

end Draft

/-! ## Containers -/

/-- The name of the elements that open containers of a kind. -/
def OpenContainer.word : OpenContainer → Text
  | dictionary _ => "dict".toList
  | array _ => "array".toList

/-- A container of the same kind without parts. -/
def OpenContainer.emptied : OpenContainer → OpenContainer
  | dictionary _ => dictionary []
  | array _ => array []

/-- What the container is when it is closed. -/
def OpenContainer.closed : OpenContainer → Value
  | dictionary entries => .dictionary entries
  | array items => .array items.reverse

namespace Draft

variable {d : Draft}

/-- The draft inside of a container that is opened here. -/
def inside (d : Draft) (container : OpenContainer) : Draft :=
  { d with containers := ⟨d.key, container⟩ :: d.containers, key := none }

theorem take_opened_container (document : Text) (offset : Nat) (container : OpenContainer)
    (attributes : List (Name × Text)) :
    take document d (offset, .opened ⟨[], container.word⟩ attributes) =
      ((d.within container.word).withText []).openContainer document offset container.emptied := by
  cases container <;> simp [take, OpenContainer.word, OpenContainer.emptied, within, withText]

theorem closeElement_container (document : Text) (offset : Nat) (container : OpenContainer) :
    (d.inside container).closeElement document offset container.word =
      .ok (d.put container.closed) := by
  cases container with
  | dictionary entries => rfl
  | array items => rfl

/-- A container is opened, filled and put in its place. -/
theorem takes_container (haccepts : d.Accepts) (container : OpenContainer)
    (attributes : List (Name × Text)) {events : List Event}
    (hinside : Takes events ((d.within container.word).inside container.emptied)
      ((d.within container.word).inside container)) :
    Takes (.opened ⟨[], container.word⟩ attributes :: events ++ [.closed]) d
      (d.put container.closed) := by
  refine takes_element (d.inside container.emptied) (d.inside container)
    (fun document offset text => ?_) fun document list hlist => ?_
  · have hallows : (((d.withText text).within container.word).withText []).allowsValue document
        offset = .ok () := haccepts document offset
    rw [take_opened_container, openContainer, hallows]
    rfl
  · obtain ⟨text, hfold⟩ := hinside document list [] hlist
    refine ⟨text, hfold, fun offset => ⟨text, ?_⟩⟩
    exact (closeElement_container (d := d.withText text) document offset container).trans
      (congrArg Except.ok (place_withText (d := { d with key := none }) d.key _ text))

end Draft

/-! ## What is written -/

/-- Names are taken as they are written, and no attributes are declared. -/
structure ArePlain (definitions : Definitions) : Prop where
  namespaces : definitions.namespaces = false
  attributes : definitions.attributes = []

section Written

variable {definitions : Definitions} (hplain : ArePlain definitions)

/-- Among elements, the text leads a reading from one draft to another; it holds no mark of octets
that the end cuts off. -/
structure Reads (definitions : Definitions) (t : Text) (d d' : Draft) : Prop where
  unmarked : cutOff ∉ t
  told : ∃ events, (∀ bindings opened, opened ≠ [] →
    Tells false definitions ⟨bindings, opened, true⟩ ⟨bindings, opened, true⟩ t events) ∧
    d.Takes events d'

theorem Reads.nil (d : Draft) : Reads definitions [] d d where
  unmarked := List.not_mem_nil
  told := ⟨[], fun _ _ _ => .nil, Draft.takes_chars d []⟩

theorem Reads.append {t t' : Text} {d d' d'' : Draft} (h : Reads definitions t d d')
    (h' : Reads definitions t' d' d'') : Reads definitions (t ++ t') d d'' := by
  obtain ⟨events, htells, htakes⟩ := h.told
  obtain ⟨events', htells', htakes'⟩ := h'.told
  refine ⟨List.not_mem_append h.unmarked h'.unmarked, events ++ events',
    fun bindings opened hopened => ?_, htakes.append htakes'⟩
  exact (htells bindings opened hopened).append (htells' bindings opened hopened)

/-! ### Characters -/

/-- A character that markup holds as it is. -/
def isBare (c : Char) : Bool :=
  !isForbidden c && c != '&' && c != '<' && c != '>' && c != '\r'

theorem isBare_of_isDigit {c : Char} (h : c.isDigit = true) : isBare c = true := by
  have hall : ∀ n < 58, 48 ≤ n → isBare (Char.ofNat n) = true := by decide
  obtain ⟨hlow, hhigh⟩ := Numeral.toNat_of_isDigit h
  rw [← Char.ofNat_toNat c]
  exact hall _ (by omega) hlow

/-- The text of an integer has digits, and a sign before them. -/
theorem isBare_of_mem_toString {n : Int} {c : Char} (hc : c ∈ (toString n).toList) :
    isBare c = true ∧ c ≠ 'x' ∧ c ≠ 'X' := by
  rw [Numeral.toString_toList, Numeral.sign] at hc
  rcases List.mem_append.1 hc with hc | hc
  · split at hc
    · rw [List.mem_singleton.1 hc]
      decide
    · cases hc
  · have hdigit := Numeral.areDigits_toDigits _ c hc
    exact ⟨isBare_of_isDigit hdigit, Numeral.ne_of_isDigit hdigit (by decide),
      Numeral.ne_of_isDigit hdigit (by decide)⟩

theorem isBare_of_mem_encode {octets : List UInt8} {c : Char} (hc : c ∈ Base64.encode octets) :
    isBare c = true := by
  have hsymbol : ∀ n < 64, isBare (Base64.symbol n) = true := by decide
  rcases Base64.mem_encode hc with ⟨n, hn, rfl⟩ | rfl
  · exact hsymbol n hn
  · decide

theorem of_isBare {c : Char} (h : isBare c = true) :
    isForbidden c = false ∧ escapeInText c = [c] ∧ c ≠ '\r' := by
  simp only [isBare, Bool.and_eq_true, Bool.not_eq_true', bne_iff_ne] at h
  obtain ⟨⟨⟨⟨hlegal, hamp⟩, hlt⟩, hgt⟩, hreturn⟩ := h
  exact ⟨hlegal, by rw [escapeInText, if_neg hamp, if_neg hlt, if_neg hgt], hreturn⟩

/-- What is held as it is needs no references and has line ends of one kind. -/
theorem escape_of_isBare {t : Text} (h : ∀ c ∈ t, isBare c = true) :
    (∀ c ∈ t, isForbidden c = false) ∧ t.flatMap escapeInText = t ∧ Text.unifyLines t = t := by
  refine ⟨fun c hc => (of_isBare (h c hc)).1, ?_,
    unifyLines_of_notMem fun hc => (of_isBare (h _ hc)).2.2 rfl⟩
  calc t.flatMap escapeInText
      = t.flatMap fun c => [c] := List.flatMap_congr fun c hc => (of_isBare (h c hc)).2.1
    _ = t := List.flatMap_singleton' t

/-- A forbidden character is a control that the writer refuses, or one of the two marks. -/
theorem isControl_of_isForbidden {c : Char} (h : isForbidden c = true) :
    isControl c = true ∨ c = cutOff ∨ c = garbled := by
  have hof (n : Nat) (hn : c.toNat = n) : c = Char.ofNat n := by rw [← hn, Char.ofNat_toNat]
  simp only [isForbidden, Bool.or_eq_true, Bool.and_eq_true, decide_eq_true_eq, beq_iff_eq,
    Bool.not_eq_true'] at h
  rcases h with (⟨hsmall, hspace⟩ | hcutOff) | hgarbled
  · simp only [isSpace, Bool.or_eq_false_iff, beq_eq_false_iff_ne] at hspace
    simp [isControl, hsmall, hspace]
  · exact .inr (.inl (hof _ hcutOff))
  · exact .inr (.inr (hof _ hgarbled))

/-- What the writer takes as a text is legal, but for the two marks. -/
theorem escapeText_eq_ok {t written : Text} (h : escapeText t = .ok written) (hmark : HasNoMark t) :
    written = (Text.unifyLines t).flatMap escapeInText ∧ IsLegal (Text.unifyLines t) := by
  unfold escapeText at h
  split at h
  · cases h
  · next hcontrol =>
    refine ⟨(Except.ok.inj h).symm, isLegal_unifyLines fun c hc => ?_⟩
    by_contra hforbidden
    rcases isControl_of_isForbidden (by simpa using hforbidden) with hbad | rfl | rfl
    · exact hcontrol (List.any_eq_true.2 ⟨c, hc, hbad⟩)
    · exact hmark.1 hc
    · exact hmark.2 hc

/-! ### Lines -/

theorem tells_tabs {bindings : Bindings} {opened : List OpenElement} (hopened : opened ≠ [])
    (level : Nat) :
    Tells false definitions ⟨bindings, opened, true⟩ ⟨bindings, opened, true⟩
      (List.replicate level '\t') ((List.replicate level '\t').map .char) := by
  have hbare (c : Char) (hc : c ∈ List.replicate level '\t') : c = '\t' :=
    List.eq_of_mem_replicate hc
  obtain ⟨hlegal, hescape, hunify⟩ := escape_of_isBare (t := List.replicate level '\t')
    fun c hc => by rw [hbare c hc]; decide
  have htabs : Tells false definitions ⟨bindings, opened, true⟩ ⟨bindings, opened, true⟩ _ _ :=
    tells_text_of_head? hopened hlegal fun _ hhead =>
      absurd (hbare _ (List.mem_of_head? hhead)) (by decide)
  rwa [hescape, hunify] at htabs

theorem tells_feed {bindings : Bindings} {opened : List OpenElement} (hopened : opened ≠ []) :
    Tells false definitions ⟨bindings, opened, false⟩ ⟨bindings, opened, true⟩ ['\n']
      [.char '\n'] := tells_text hopened (t := ['\n']) (by decide)

/-- An element on a line of its own. -/
theorem reads_line (level : Nat) {t : Text} (hmark : cutOff ∉ t) {events : List Event}
    {d d' : Draft}
    (htells : ∀ bindings opened, TellsElement false definitions bindings opened t events)
    (htakes : d.Takes events d') : Reads definitions (writtenLine level t) d d' where
  unmarked := by
    have hblanks : cutOff ≠ '\t' ∧ cutOff ≠ '\n' := by decide
    simp [writtenLine, hmark, hblanks]
  told := ⟨(List.replicate level '\t').map Event.char ++ events ++ [Event.char '\n'],
    fun bindings opened hopened =>
      ((tells_tabs hopened level).append ((htells bindings opened).tells hopened)).append
        (tells_feed hopened),
    ((Draft.takes_chars d _).append htakes).append (Draft.takes_chars d' ['\n'])⟩

theorem cutOff_notMem_name {word : Text} (hword : isPlainName word = true) : cutOff ∉ word :=
  cutOff_notMem_of_isNameMore fun _ hc => isNameMore_of_isPlainName hword hc

theorem cutOff_notMem_element {word : Text} (hword : isPlainName word = true) {t : Text}
    (ht : cutOff ∉ t) : cutOff ∉ '<' :: word ++ '>' :: t ++ '<' :: '/' :: (word ++ ['>']) := by
  have hsigns : cutOff ≠ '<' ∧ cutOff ≠ '>' ∧ cutOff ≠ '/' := by decide
  simp [cutOff_notMem_name hword, ht, hsigns]

section Lines

include hplain

theorem opensAs_plain (bindings : Bindings) (word : Text) :
    OpensAs definitions bindings word [] bindings ⟨[], word⟩ [] where
  undeclared := hplain.attributes
  nodup := List.nodup_nil
  declares := rfl
  named := by simp [hplain.namespaces]

theorem tellsElement_plain {word : Text} (hword : isPlainName word = true) {bindings : Bindings}
    {opened : List OpenElement} {t : Text} {events : List Event}
    (hinside : Tells false definitions ⟨bindings, ⟨word, bindings⟩ :: opened, false⟩
      ⟨bindings, ⟨word, bindings⟩ :: opened, true⟩ t events) :
    TellsElement false definitions bindings opened
      ('<' :: word ++ '>' :: t ++ '<' :: '/' :: (word ++ ['>']))
      (.opened ⟨[], word⟩ [] :: events ++ [.closed]) := by
  have helement := tellsElement (.plain hword) (by nofun) (opensAs_plain hplain bindings word)
    hinside
  simpa [writeAttributes] using helement

/-- A value that is written as a text between two tags. -/
theorem reads_leaf {name : String} (hname : isPlainName name.toList = true)
    (hkind : name.toList ≠ "dict".toList ∧ name.toList ≠ "array".toList) (level : Nat) {t : Text}
    (hlegal : IsLegal t) {d d' : Draft}
    (hclose : ∀ document offset, ∃ text',
      (d.withText (Text.unifyLines t).reverse).closeElement document offset name.toList =
        .ok (d'.withText text')) :
    Reads definitions (leafLine level name (t.flatMap escapeInText)) d d' := by
  have hline : leafLine level name (t.flatMap escapeInText) = writtenLine level
      ('<' :: name.toList ++ '>' :: t.flatMap escapeInText ++
        '<' :: '/' :: (name.toList ++ ['>'])) := by
    simp [leafLine, tag]
  rw [hline]
  exact reads_line level (cutOff_notMem_element hname (cutOff_notMem_escapeInText hlegal))
    (fun bindings opened => tellsElement_plain hplain hname
      (tells_text (List.cons_ne_nil _ _) hlegal))
    (Draft.takes_leaf hkind.1 hkind.2 _ hclose)

/-- An element without anything in it is one tag. -/
theorem reads_emptyLine (name : String) (hname : isPlainName name.toList = true) (level : Nat)
    {d d' : Draft} (htakes : d.Takes [.opened ⟨[], name.toList⟩ [], .closed] d') :
    Reads definitions (emptyLine level name) d d' := by
  have hmark : cutOff ∉ tag (name ++ "/") := by
    have hsigns : cutOff ≠ '<' ∧ cutOff ≠ '>' ∧ cutOff ≠ '/' := by decide
    simp [tag, cutOff_notMem_name hname, hsigns]
  refine reads_line level hmark (fun bindings opened => ?_) htakes
  have helement : TellsElement false definitions bindings opened _ _ :=
    tellsElement_empty (.plain hname) (by nofun) (opensAs_plain hplain bindings name.toList)
      (.inl rfl)
  simpa [writeAttributes, tag] using helement

/-- The lines of a container: its tags, and its parts between them. -/
theorem reads_container {name : String} (hname : isPlainName name.toList = true) (level : Nat)
    (container : OpenContainer) (hword : container.word = name.toList) {t : Text} {d : Draft}
    (haccepts : d.Accepts)
    (hinside : Reads definitions t ((d.within container.word).inside container.emptied)
      ((d.within container.word).inside container)) :
    Reads definitions
      (writtenLine level (tag name) ++ t ++ writtenLine level (tag ("/" ++ name))) d
      (d.put container.closed) := by
  obtain ⟨events, htells, htakes⟩ := hinside.told
  have hline : writtenLine level (tag name) ++ t ++ writtenLine level (tag ("/" ++ name)) =
      writtenLine level ('<' :: container.word ++ '>' ::
        (['\n'] ++ t ++ List.replicate level '\t') ++
          '<' :: '/' :: (container.word ++ ['>'])) := by
    simp [writtenLine, tag, hword]
  rw [hline]
  have hfilled := ((Draft.takes_chars _ ['\n']).append htakes).append
    (Draft.takes_chars _ (List.replicate level '\t'))
  have hmark : cutOff ∉ ['\n'] ++ t ++ List.replicate level '\t' := by
    have hblanks : cutOff ≠ '\t' ∧ cutOff ≠ '\n' := by decide
    simp [hinside.unmarked, hblanks]
  refine reads_line level (cutOff_notMem_element (hword ▸ hname) hmark)
    (fun bindings opened => ?_)
    (Draft.takes_container haccepts container [] hfilled)
  have hopened : (⟨container.word, bindings⟩ : OpenElement) :: opened ≠ [] := List.cons_ne_nil _ _
  exact tellsElement_plain hplain (hword ▸ hname)
    (((tells_feed hopened).append (htells bindings _ hopened)).append (tells_tabs hopened level))

/-! ### Values -/

/-- A value whose text needs no references. -/
theorem reads_bareLeaf {name : String} (hname : isPlainName name.toList = true)
    (hkind : name.toList ≠ "dict".toList ∧ name.toList ≠ "array".toList ∧
      name.toList ≠ "key".toList)
    (hflag : Draft.flag? name.toList = none) (level : Nat) {t : Text}
    (hbare : ∀ c ∈ t, isBare c = true) {value : Value}
    (hleaf : Draft.leaf? name.toList t = some (.ok value)) {d : Draft} (haccepts : d.Accepts) :
    Reads definitions (leafLine level name t) d (d.put value) := by
  obtain ⟨hlegal, hescape, hunify⟩ := escape_of_isBare hbare
  have hreads : Reads definitions (leafLine level name (t.flatMap escapeInText)) d (d.put value) :=
    reads_leaf hplain hname ⟨hkind.1, hkind.2.1⟩ level hlegal fun document offset =>
      ⟨[], hunify.symm ▸ Draft.closeElement_leaf haccepts hkind hflag hleaf document offset⟩
  rwa [hescape] at hreads

theorem reads_flag (level : Nat) (b : Bool) {d : Draft} (haccepts : d.Accepts) :
    Reads definitions (emptyLine level (if b then "true" else "false")) d (d.put (.flag b)) := by
  have htakes {word : Text} (hword : word ≠ "dict".toList ∧ word ≠ "array".toList)
      (hkey : word ≠ "key".toList) (hflag : Draft.flag? word = some b) :
      d.Takes [.opened ⟨[], word⟩ [], .closed] (d.put (.flag b)) := by
    refine Draft.takes_leaf hword.1 hword.2 [] fun document offset => ⟨[], ?_⟩
    rw [Draft.closeElement, if_neg hword.1, if_neg hword.2, if_neg hkey, hflag]
    exact Draft.add_eq_put haccepts (.flag b) [] document offset
  cases b with
  | true =>
      exact reads_emptyLine hplain "true" (by decide) level
        (htakes (by decide) (by decide) rfl)
  | false =>
      exact reads_emptyLine hplain "false" (by decide) level
        (htakes (by decide) (by decide) rfl)

theorem reads_integer (level : Nat) {n : Int} (hn : holdsInteger n = true) {d : Draft}
    (haccepts : d.Accepts) :
    Reads definitions (leafLine level "integer" (toString n).toList) d (d.put (.integer n)) := by
  have hlength : (Nat.toDigits 10 n.natAbs).length ≤ 20 := by
    rw [Nat.length_toDigits_le_iff (by decide) (by decide)]
    simp only [holdsInteger, Bool.and_eq_true, decide_eq_true_eq, Nat.shiftLeft_eq] at hn
    omega
  have hdecimal := Numeral.decimal?_toString (n := n)
    (hlength.trans (by decide : 20 ≤ Numeral.digitLimit))
  have hprefix {x : Char} (hx : x ∉ (toString n).toList) :
      Text.startsWith (toString n).toList ['0', x] = false := by
    rw [Bool.eq_false_iff]
    intro hstart
    exact hx ((List.isPrefixOf_iff_prefix.1 hstart).subset (by simp))
  have hinteger : Draft.leaf? "integer".toList (toString n).toList = some (.ok (.integer n)) := by
    have hx := hprefix fun hx => (isBare_of_mem_toString hx).2.1 rfl
    have hX := hprefix fun hX => (isBare_of_mem_toString hX).2.2 rfl
    rw [Draft.leaf?, if_pos rfl, Draft.integerOf, if_neg, hdecimal]
    rw [show "0x".toList = ['0', 'x'] from rfl, show "0X".toList = ['0', 'X'] from rfl, hx, hX]
    decide
  exact reads_bareLeaf hplain (by decide) (by decide) rfl level
    (fun c hc => (isBare_of_mem_toString hc).1) hinteger haccepts

theorem reads_data (level : Nat) (octets : List UInt8) {d : Draft} (haccepts : d.Accepts) :
    Reads definitions (dataLines level octets) d (d.put (.data octets)) := by
  have hlines : dataLines level octets = leafLine level "data" (['\n'] ++
      ((chunks (octetsPerLine level) octets).flatMap (fun part =>
        List.replicate level '\t' ++ Base64.encode part ++ ['\n']) ++
          List.replicate level '\t')) := by
    have htag : tag "/data" = '<' :: '/' :: ("data".toList ++ ['>']) := rfl
    simp [dataLines, leafLine, writtenLine, htag]
  have hindent (c : Char) (hc : c ∈ List.replicate level '\t') : c = '\t' :=
    List.eq_of_mem_replicate hc
  have hdecode : Draft.leaf? "data".toList (['\n'] ++
      ((chunks (octetsPerLine level) octets).flatMap (fun part =>
        List.replicate level '\t' ++ Base64.encode part ++ ['\n']) ++
          List.replicate level '\t')) = some (.ok (.data octets)) := by
    have hdata := Base64.decodeFrom_lines (Base64.octetsPerLine_pos level)
      (Base64.octetsPerLine_mod level)
      (fun c hc => by rw [hindent c hc]; decide) (Nat.le_refl octets.length) []
    rw [Draft.leaf?_data, Base64.decode, List.singleton_append,
      Base64.decodeFrom_skip _ (by decide) (by decide), chunks, hdata]
    rfl
  rw [hlines]
  refine reads_bareLeaf hplain (by decide) (by decide) rfl level
    (fun c hc => ?_) hdecode haccepts
  simp only [List.mem_append, List.mem_flatMap, List.mem_singleton] at hc
  have hfeed : isBare '\n' = true := by decide
  have htab : isBare '\t' = true := by decide
  rcases hc with rfl | ⟨part, -, (hc | hc) | rfl⟩ | hc
  · exact hfeed
  · exact hindent c hc ▸ htab
  · exact isBare_of_mem_encode hc
  · exact hfeed
  · exact hindent c hc ▸ htab

theorem reads_real (level : Nat) (x : Binary64) {d : Draft} (haccepts : d.Accepts) :
    Reads definitions (leafLine level "real" x.text.toList) d (d.put (Value.real x).reread) := by
  have hmarks : ∀ c ∈ Binary64.textMarks, isBare c = true := by decide
  obtain ⟨y, hy⟩ := Option.isSome_iff_exists.1 (Binary64.real?_text_isSome x)
  have hreread : (Value.real x).reread = .real y := by rw [Value.reread, hy]; rfl
  have hreal : Draft.leaf? "real".toList x.text.toList = some (.ok (.real y)) := by
    rw [Draft.leaf?_real, hy]
  rw [hreread]
  exact reads_bareLeaf hplain (by decide) (by decide) rfl level
    (fun c hc => (Binary64.mem_text hc).elim isBare_of_isDigit (hmarks c)) hreal haccepts

theorem reads_date (level : Nat) {date : Date} (hdate : date.check = .ok date) {d : Draft}
    (haccepts : d.Accepts) :
    Reads definitions (leafLine level "date" date.write) d (d.put (.date date)) := by
  have hmarks : ∀ c ∈ ['-', 'T', ':', 'Z'], isBare c = true := by decide
  have hread : Draft.leaf? "date".toList date.write = some (.ok (.date date)) := by
    rw [Draft.leaf?_date, Date.read_write hdate]
  exact reads_bareLeaf hplain (by decide) (by decide) rfl level
    (fun c hc => (Date.mem_write hc).elim isBare_of_isDigit (hmarks c)) hread haccepts

theorem reads_text (level : Nat) {t written : Text} (hwritten : escapeText t = .ok written)
    (hmark : HasNoMark t) {d : Draft} (haccepts : d.Accepts) :
    Reads definitions (leafLine level "string" written) d
      (d.put (.text (Text.unifyLines t))) := by
  obtain ⟨rfl, hlegal⟩ := escapeText_eq_ok hwritten hmark
  refine reads_leaf hplain (by decide) (by decide) level hlegal
    fun document offset => ⟨[], ?_⟩
  rw [unifyLines_of_notMem (return_notMem_unifyLines t)]
  exact Draft.closeElement_leaf haccepts (by decide) rfl rfl document offset

/-- A key in a dictionary waits for its value. -/
theorem reads_key (level : Nat) {key written : Text} (hwritten : escapeText key = .ok written)
    (hmark : HasNoMark key) {d : Draft} (entries : List (Text × Value)) :
    Reads definitions (leafLine level "key" written) (d.inside (.dictionary entries))
      { d.inside (.dictionary entries) with key := some (Text.unifyLines key) } := by
  obtain ⟨rfl, hlegal⟩ := escapeText_eq_ok hwritten hmark
  refine reads_leaf hplain (by decide) (by decide) level hlegal
    fun document offset => ⟨[], ?_⟩
  rw [unifyLines_of_notMem (return_notMem_unifyLines key)]
  have hclose : ((d.inside (.dictionary entries)).withText
      (Text.unifyLines key).reverse).closeElement document offset "key".toList =
        .ok ((({ d.inside (.dictionary entries) with
          key := some (Text.unifyLines key).reverse.reverse } : Draft)).withText []) := rfl
  rwa [List.reverse_reverse] at hclose

end Lines

/-! ### Whole values -/

theorem accepts_array (d : Draft) (items : List Value) : (d.inside (.array items)).Accepts :=
  fun _ _ => rfl

theorem accepts_behindKey (d : Draft) (entries : List (Text × Value)) (key : Text) :
    Draft.Accepts { d.inside (.dictionary entries) with key := some key } := fun _ _ => rfl

end Written

mutual

/-- What is written for a value is read as the value, in its place. -/
theorem reads_write {definitions : Definitions} (hplain : ArePlain definitions) (value : Value)
    (hsound : value.Every Value.IsSound) (level : Nat) {t : Text} (h : value.write level = .ok t)
    {d : Draft} (haccepts : d.Accepts) :
    Reads definitions t d (d.put value.reread) := by
  match value with
  | .text t =>
      obtain ⟨written, hwritten, h⟩ := bind_eq_ok.1 h
      obtain rfl := Except.ok.inj h
      exact reads_text hplain level hwritten (hsound _ (.self _)) haccepts
  | .flag b =>
      obtain rfl := Except.ok.inj h
      exact reads_flag hplain level b haccepts
  | .integer n =>
      rw [Value.write] at h
      split at h
      · next hn =>
        obtain rfl := Except.ok.inj h
        exact reads_integer hplain level hn haccepts
      · cases h
  | .real x =>
      obtain rfl := Except.ok.inj h
      exact reads_real hplain level x haccepts
  | .date date =>
      obtain rfl := Except.ok.inj h
      exact reads_date hplain level (hsound _ (.self _)) haccepts
  | .data octets =>
      obtain rfl := Except.ok.inj h
      exact reads_data hplain level octets haccepts
  | .array [] =>
      obtain rfl := Except.ok.inj h
      exact reads_emptyLine hplain "array" (by decide) level
        (Draft.takes_container haccepts (.array []) [] (Draft.takes_chars _ []))
  | .array (item :: items) =>
      obtain ⟨written, hwritten, h⟩ := bind_eq_ok.1 h
      obtain rfl := Except.ok.inj h
      have hinside := reads_writeItems hplain (item :: items)
        (fun part i hi hpart => hsound part (.item hi hpart)) (level + 1) hwritten
        (d := d.within "array".toList) []
      rw [List.append_nil] at hinside
      have hreads := reads_container hplain (by decide) level
        (.array (rereadItems (item :: items)).reverse) rfl haccepts hinside
      rwa [OpenContainer.closed, List.reverse_reverse] at hreads
  | .dictionary [] =>
      obtain rfl := Except.ok.inj h
      exact reads_emptyLine hplain "dict" (by decide) level
        (Draft.takes_container haccepts (.dictionary []) [] (Draft.takes_chars _ []))
  | .dictionary (entry :: entries) =>
      obtain ⟨written, hwritten, h⟩ := bind_eq_ok.1 h
      obtain rfl := Except.ok.inj h
      have hinside := reads_writeEntries hplain (entry :: entries)
        (fun e he => hsound _ (.key he)) (fun part e he hpart => hsound part (.value he hpart))
        (level + 1) hwritten (d := d.within "dict".toList) []
      exact reads_container hplain (by decide) level
        (.dictionary (rereadEntries [] (entry :: entries))) rfl haccepts hinside

/-- The items of an array are read behind those before them. -/
theorem reads_writeItems {definitions : Definitions} (hplain : ArePlain definitions)
    (items : List Value)
    (hsound : ∀ part, ∀ item ∈ items, item.HasPart part → part.IsSound) (level : Nat) {t : Text}
    (h : writeItems level items = .ok t) {d : Draft} (before : List Value) :
    Reads definitions t (d.inside (.array before))
      (d.inside (.array ((rereadItems items).reverse ++ before))) := by
  match items with
  | [] =>
      obtain rfl := Except.ok.inj h
      exact .nil _
  | item :: others =>
      obtain ⟨first, hfirst, h⟩ := bind_eq_ok.1 h
      obtain ⟨rest, hrest, h⟩ := bind_eq_ok.1 h
      obtain rfl := Except.ok.inj h
      have hitem := reads_write hplain item (fun part => hsound part item List.mem_cons_self)
        level hfirst (accepts_array d before)
      have hothers := reads_writeItems hplain others
        (fun part i hi => hsound part i (List.mem_cons_of_mem item hi)) level hrest (d := d)
        (item.reread :: before)
      have hput : (d.inside (.array before)).put item.reread =
          d.inside (.array (item.reread :: before)) := rfl
      rw [hput] at hitem
      simpa [rereadItems] using hitem.append hothers

/-- The entries of a dictionary are set behind those before them. -/
theorem reads_writeEntries {definitions : Definitions} (hplain : ArePlain definitions)
    (entries : List (Text × Value))
    (hkeys : ∀ entry ∈ entries, (Value.text entry.1).IsSound)
    (hsound : ∀ part, ∀ entry ∈ entries, entry.2.HasPart part → part.IsSound) (level : Nat)
    {t : Text} (h : writeEntries level entries = .ok t) {d : Draft}
    (before : List (Text × Value)) :
    Reads definitions t (d.inside (.dictionary before))
      (d.inside (.dictionary (rereadEntries before entries))) := by
  match entries with
  | [] =>
      obtain rfl := Except.ok.inj h
      exact .nil _
  | (key, value) :: others =>
      obtain ⟨written, hwritten, h⟩ := bind_eq_ok.1 h
      obtain ⟨first, hfirst, h⟩ := bind_eq_ok.1 h
      obtain ⟨rest, hrest, h⟩ := bind_eq_ok.1 h
      obtain rfl := Except.ok.inj h
      have hkey := reads_key hplain level hwritten
        (hkeys (key, value) List.mem_cons_self) (d := d) before
      have hvalue := reads_write hplain value
        (fun part => hsound part (key, value) List.mem_cons_self) level hfirst
        (accepts_behindKey d before (Text.unifyLines key))
      have hothers := reads_writeEntries hplain others
        (fun entry hentry => hkeys entry (List.mem_cons_of_mem _ hentry))
        (fun part entry hentry => hsound part entry (List.mem_cons_of_mem _ hentry)) level hrest
        (d := d) (setEntry (Text.unifyLines key) value.reread before)
      have hput : Draft.put { d.inside (.dictionary before) with
          key := some (Text.unifyLines key) } value.reread =
            d.inside (.dictionary (setEntry (Text.unifyLines key) value.reread before)) := rfl
      rw [hput] at hvalue
      exact (hkey.append hvalue).append hothers

end

/-! ## Values that are read as they are -/

/-- What a part has to be so that it is read as itself: line ends are unified, and a number with a
fraction is read as some other one at worst. -/
def Value.IsSteady : Value → Prop
  | .text t => '\r' ∉ t
  | .real _ => False
  | _ => True

mutual

theorem reread_eq_self (value : Value) (hsound : value.Every Value.IsSound)
    (h : value.Every Value.IsSteady) : value.reread = value := by
  match value with
  | .text t => rw [Value.reread, unifyLines_of_notMem (h _ (.self _))]
  | .flag _ | .integer _ | .date _ | .data _ => rfl
  | .real x => exact absurd (h _ (.self _)) id
  | .array items =>
      rw [Value.reread,
        rereadItems_eq_self items (every_array.1 hsound).2 (every_array.1 h).2]
  | .dictionary entries =>
      rw [Value.reread, rereadEntries_eq_append entries
        (fun entry hentry => ((every_dictionary.1 hsound).2 entry hentry).2)
        (every_dictionary.1 h).2 [] (every_dictionary.1 hsound).1]
      rfl

theorem rereadItems_eq_self (items : List Value)
    (hsound : ∀ item ∈ items, item.Every Value.IsSound)
    (h : ∀ item ∈ items, item.Every Value.IsSteady) : rereadItems items = items := by
  match items with
  | [] => rfl
  | item :: others =>
      rw [rereadItems, reread_eq_self item (hsound _ List.mem_cons_self) (h _ List.mem_cons_self),
        rereadItems_eq_self others (fun i hi => hsound i (List.mem_cons_of_mem item hi))
          (fun i hi => h i (List.mem_cons_of_mem item hi))]

theorem rereadEntries_eq_append (entries : List (Text × Value))
    (hsound : ∀ entry ∈ entries, entry.2.Every Value.IsSound)
    (h : ∀ entry ∈ entries, (Value.text entry.1).IsSteady ∧ entry.2.Every Value.IsSteady)
    (before : List (Text × Value)) (hnodup : ((before ++ entries).map (·.1)).Nodup) :
    rereadEntries before entries = before ++ entries := by
  match entries with
  | [] => exact (List.append_nil before).symm
  | (key, value) :: others =>
      have hkey : key ∉ before.map (·.1) := fun hmem => by
        rw [List.map_append, List.nodup_append] at hnodup
        exact hnodup.2.2 key hmem key List.mem_cons_self rfl
      have hothers := rereadEntries_eq_append others
        (fun entry hentry => hsound entry (List.mem_cons_of_mem _ hentry))
        (fun entry hentry => h entry (List.mem_cons_of_mem _ hentry))
        (before ++ [(key, value)]) (by simpa using hnodup)
      rw [rereadEntries, unifyLines_of_notMem (h (key, value) List.mem_cons_self).1,
        reread_eq_self value (hsound (key, value) List.mem_cons_self)
          (h (key, value) List.mem_cons_self).2,
        setEntry_of_notMem hkey, hothers]
      simp

end

end BundleHook.PropertyList
