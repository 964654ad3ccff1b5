import BundleHook.Markup.Event
import BundleHook.Proofs.Markup.Scanning
import BundleHook.Proofs.Outcome

/-!
# What a written document tells

Scanner and reading go hand in hand: a piece of a document leads from one place among the elements
to another and tells some events on the way. The offsets of the events are left open.
-/

namespace BundleHook.Markup

/-! ## Readings of what has been scanned -/

/-- What the tokens scanned so far are read as. -/
def Lexer.reading (isStrict : Bool) (s : Lexer) : Reading :=
  s.tokens.reverse.foldl Reading.take (.initial s.namespaces isStrict)

theorem Lexer.reading_of_tokens {isStrict : Bool} {s s' : Lexer} (entries : List (Nat × Token))
    (hns : s'.namespaces = s.namespaces) (h : s'.tokens = entries.reverse ++ s.tokens) :
    s'.reading isStrict = entries.foldl Reading.take (s.reading isStrict) := by
  rw [reading, h, hns, List.reverse_append, List.reverse_reverse, List.foldl_append]
  rfl

/-- A place among the elements of a document. -/
structure Spot where
  bindings : Bindings
  opened : List OpenElement
  /-- Text may have been read since the last markup. -/
  behindText : Bool

/-- The content with these events, latest first. -/
def Spot.content (spot : Spot) (d : Definitions) (events : List (Nat × Event)) : Content :=
  ⟨d, spot.bindings, spot.opened, events⟩

/-- The reading inside the root, or behind it when no element is open. -/
def Reading.ofContent (c : Content) : Reading :=
  ⟨if c.opened.isEmpty then .epilog else .root c, c.events, none⟩

theorem Reading.take_root {r : Reading} {c c' : Content} (hpart : r.part = .root c)
    (hfault : r.fault = none) {entry : Nat × Token} (h : c.take entry = (c', none)) :
    r.take entry = .ofContent c' := by
  simp only [Reading.take, hfault, Option.isSome_none, Bool.false_eq_true, if_false, hpart,
    takeRoot, h]
  rfl

theorem Reading.take_ofContent {c c' : Content} (hopened : c.opened ≠ []) {entry : Nat × Token}
    (h : c.take entry = (c', none)) : (Reading.ofContent c).take entry = .ofContent c' := by
  refine take_root ?_ rfl h
  simp only [ofContent, List.isEmpty_eq_false_iff.2 hopened, Bool.false_eq_true, if_false]

/-- The scanner and the reading are at a place, and these events have been told, latest first. -/
structure Lexer.IsAt (s : Lexer) (isStrict : Bool) (d : Definitions) (spot : Spot)
    (told : List Event) : Prop where
  place : s.AtText d.namespaces spot.opened.length spot.behindText
  reading : ∃ events, s.reading isStrict = .ofContent (spot.content d events) ∧
    events.map (·.2) = told

/-- The text leads from one place to another and tells these events. -/
def Tells (isStrict : Bool) (d : Definitions) (spot spot' : Spot) (t : Text)
    (events : List Event) : Prop :=
  ∀ (s : Lexer) (told : List Event), s.IsAt isStrict d spot told →
    ∃ s', s.Scans t s' ∧ s'.IsAt isStrict d spot' (events.reverse ++ told)

variable {isStrict : Bool} {d : Definitions} {spot spot' spot'' : Spot} {t t' : Text}
  {events events' : List Event} {bindings bindings' : Bindings} {opened : List OpenElement}
  {behindText : Bool}

theorem Tells.nil : Tells isStrict d spot spot [] [] := fun s _ h => ⟨s, .nil s, h⟩

theorem Tells.append (h : Tells isStrict d spot spot' t events)
    (h' : Tells isStrict d spot' spot'' t' events') :
    Tells isStrict d spot spot'' (t ++ t') (events ++ events') := by
  intro s told hs
  obtain ⟨s₁, hscan, hs₁⟩ := h s told hs
  obtain ⟨s₂, hscan', hs₂⟩ := h' s₁ _ hs₁
  refine ⟨s₂, hscan.append hscan', ?_⟩
  rwa [List.reverse_append, List.append_assoc]

/-! ## Text and comments -/

theorem Content.take_of_char? {entry : Nat × Token} {c : Char} (h : entry.2.char? = some c)
    (content : Content) : content.take entry = (content.add entry.1 (.char c), none) := by
  obtain ⟨place, token⟩ := entry
  cases token with
  | char d =>
      obtain rfl := Option.some.inj h
      rfl
  | reference reference =>
      cases reference with
      | character code =>
          have hcode : referredChar? code = some c := h
          simp [take, takeToken, takeReference, hcode]
      | entity name =>
          have hname : predefinedEntity? name = some c := h
          simp [take, takeToken, takeReference, hname]
  | _ => cases h

section Text

variable (hopened : opened ≠ [])

include hopened

theorem take_chars {b : Bool} {entries : List (Nat × Token)} {chars : Text}
    (hentries : entries.map (·.2.char?) = chars.map some) (before : List (Nat × Event)) :
    ∃ events, entries.foldl Reading.take
        (.ofContent (Spot.content ⟨bindings, opened, b⟩ d before)) =
          .ofContent (Spot.content ⟨bindings, opened, b⟩ d events) ∧
      events.map (·.2) = (chars.map Event.char).reverse ++ before.map (·.2) := by
  induction chars generalizing entries before with
  | nil =>
      obtain rfl := List.map_eq_nil_iff.1 hentries
      exact ⟨before, rfl, rfl⟩
  | cons c chars ih =>
      obtain ⟨entry, others, rfl, hchar, hothers⟩ := List.map_eq_cons_iff.1 hentries
      have htake : (Spot.content ⟨bindings, opened, b⟩ d before).take entry =
          (Spot.content ⟨bindings, opened, b⟩ d ((entry.1, .char c) :: before), none) :=
        Content.take_of_char? hchar _
      obtain ⟨events, hread, hevents⟩ := ih hothers ((entry.1, .char c) :: before)
      refine ⟨events, ?_, by simp [hevents]⟩
      rw [List.foldl_cons, Reading.take_ofContent hopened htake, hread]

/-- A text tells its characters, with its line ends unified. Behind other text it must not begin
with a line feed, which would belong to a carriage return before it. -/
theorem tells_text_of_head? (hlegal : ∀ c ∈ t, isForbidden c = false)
    (hhead : behindText = true → t.head? ≠ some '\n') :
    Tells isStrict d ⟨bindings, opened, behindText⟩ ⟨bindings, opened, true⟩
      (t.flatMap escapeInText) ((Text.unifyLines t).map .char) := by
  intro s told hs
  obtain ⟨n, hn⟩ : ∃ n, opened.length = n + 1 :=
    Nat.exists_eq_succ_of_ne_zero (by simpa using hopened)
  have hplace : s.AtText d.namespaces (n + 1) behindText := hn ▸ hs.place
  have hmode : s.mode = .textReturn → behindText = true := by
    have hmode := hplace.inText
    generalize s.mode = mode at hmode
    cases hmode <;> simp
  have hbehind : s.AtText d.namespaces (n + 1) true := by
    cases behindText with
    | true => exact hplace
    | false => exact hplace.weaken true
  obtain ⟨events, hreading, htold⟩ := hs.reading
  obtain ⟨s', entries, hscan, hentries, htokens, hplace'⟩ :=
    Lexer.scans_text hbehind hlegal fun hreturn => hhead (hmode hreturn)
  obtain ⟨events', hread, hevents⟩ := take_chars (b := true) (d := d) hopened hentries events
  refine ⟨s', hscan, ⟨by rw [hn]; exact hplace', events', ?_, by rw [hevents, htold]⟩⟩
  rw [Lexer.reading_of_tokens entries (hplace'.namespaces.trans hs.place.namespaces.symm) htokens,
    hreading]
  exact hread

theorem tells_text (hlegal : ∀ c ∈ t, isForbidden c = false) :
    Tells isStrict d ⟨bindings, opened, false⟩ ⟨bindings, opened, true⟩ (t.flatMap escapeInText)
      ((Text.unifyLines t).map .char) :=
  tells_text_of_head? hopened hlegal nofun

theorem tells_comment {body : Text} (hbody : IsCommentBody body)
    (hlegal : ∀ c ∈ body, isForbidden c = false) :
    Tells isStrict d ⟨bindings, opened, behindText⟩ ⟨bindings, opened, false⟩
      ("<!--".toList ++ body ++ "-->".toList) [.comment (Text.unifyLines body)] := by
  intro s told hs
  obtain ⟨n, hn⟩ : ∃ n, opened.length = n + 1 :=
    Nat.exists_eq_succ_of_ne_zero (by simpa using hopened)
  have hplace : s.AtText d.namespaces (n + 1) behindText := hn ▸ hs.place
  obtain ⟨events, hreading, htold⟩ := hs.reading
  obtain ⟨s', place, hscan, htokens, hplace'⟩ := Lexer.scans_comment hplace hbody hlegal
  refine ⟨s', hscan, ⟨by rw [hn]; exact hplace',
    (place, .comment (Text.unifyLines body)) :: events, ?_, by simp [htold]⟩⟩
  rw [Lexer.reading_of_tokens [_]
    (hplace'.namespaces.trans hs.place.namespaces.symm) htokens, hreading]
  exact Reading.take_ofContent hopened rfl

end Text

/-- The end of the innermost element leads back to the bindings outside it. -/
theorem tells_endTag {word : Text} (hword : IsTagName word) :
    Tells isStrict d ⟨bindings', ⟨word, bindings⟩ :: opened, behindText⟩
      ⟨bindings, opened, false⟩ ('<' :: '/' :: (word ++ ['>'])) [.closed] := by
  intro s told hs
  obtain ⟨events, hreading, htold⟩ := hs.reading
  obtain ⟨s', place, hscan, htokens, hplace⟩ := Lexer.scans_endTag hs.place hword
  refine ⟨s', hscan, ⟨hplace, (place, .closed) :: events, ?_, by simp [htold]⟩⟩
  rw [Lexer.reading_of_tokens [_]
    (hplace.namespaces.trans hs.place.namespaces.symm) htokens, hreading, List.foldl_cons,
    List.foldl_nil]
  refine Reading.take_ofContent (List.cons_ne_nil _ _) ?_
  simp [Content.take, Content.takeToken, Spot.content, Content.closeElement]

/-! ## Values of attributes -/

theorem addPiece_of_char? {enter : (name text value : Text) → Except ValueFault Text}
    {here : Option Nat} {piece : Piece} {c : Char} (h : piece.char? = some c) (value : Text) :
    addPiece d true enter here value piece = .ok (c :: value) := by
  cases piece with
  | plain d =>
      obtain rfl := Option.some.inj h
      rfl
  | space =>
      obtain rfl := Option.some.inj h
      rfl
  | reference reference =>
      cases reference with
      | character code =>
          have hcode : referredChar? code = some c := h
          simp only [addPiece, hcode, addSpace, Bool.not_true, Bool.false_and, Bool.false_eq_true,
            if_false]
          split
          · next hc => rw [hc]
          · rfl
      | entity name =>
          have hname : predefinedEntity? name = some c := h
          simp only [addPiece, hname]

theorem foldlM_pieces {add : Text → Nat × Piece → Except ValueFault Text}
    (hadd : ∀ value entry c, entry.2.char? = some c → add value entry = .ok (c :: value))
    {pieces : List (Nat × Piece)} {value : Text}
    (h : pieces.map (·.2.char?) = value.map some) (before : Text) :
    pieces.foldlM add before = .ok (value.reverse ++ before) := by
  induction value generalizing pieces before with
  | nil =>
      obtain rfl := List.map_eq_nil_iff.1 h
      rfl
  | cons c value ih =>
      obtain ⟨entry, others, rfl, hchar, hothers⟩ := List.map_eq_cons_iff.1 h
      rw [List.foldlM_cons, hadd before entry c hchar]
      simpa using ih hothers (c :: before)

/-- The value of an attribute is what it is written for. -/
theorem valueOf_of_char? {pieces : List (Nat × Piece)} {value : Text}
    (h : pieces.map (·.2.char?) = value.map some) : valueOf d true pieces = .ok value := by
  have hadd : addPieces d true d.entities.length [] [] pieces = .ok (value.reverse ++ []) := by
    cases d.entities.length <;>
      exact foldlM_pieces (fun value entry c hc => addPiece_of_char? hc value) h []
  simp [valueOf, hadd, Except.map]

/-! ## Start tags -/

/-- The bindings that the written attributes of an element make. -/
def Bindings.declare (namespaces : Bool) (bindings : Bindings) (written : List (Text × Text)) :
    Except Flaw Bindings :=
  written.foldlM (fun bindings entry =>
    match if namespaces then declaredPrefix? entry.1 else none with
    | some short => bindings.bind short entry.2
    | none => .ok bindings) bindings

theorem addWritten_ok {r : AttributesRead} {tagAt : Nat} {place : Nat → Nat} {raw : RawAttribute}
    {entry : Text × Text} (hraw : raw.IsWritten entry)
    (hfresh : ∀ value ∈ r.values, value.1 ≠ entry.1) :
    r.addWritten d [] tagAt place raw =
      (r.add d.namespaces entry.1 entry.2).mapError fun flaw => ⟨flaw, tagAt⟩ := by
  have hany : (r.values.any fun value => value.1 = entry.1) = false := by
    simpa [List.any_eq_false] using hfresh
  simp only [AttributesRead.addWritten, hraw.name, hany, Bool.false_eq_true, if_false, List.find?_nil,
    Option.all_none, valueOf_of_char? hraw.value]

/-- What an attribute with a fresh name adds: its value, and the binding it makes. -/
theorem add_eq_ok {r : AttributesRead} {namespaces : Bool} {entry : Text × Text}
    {others : List (Text × Text)}
    (h : r.bindings.declare namespaces (entry :: others) = .ok bindings') :
    ∃ bindings'', r.add namespaces entry.1 entry.2 = .ok ⟨entry :: r.values, bindings''⟩ ∧
      bindings''.declare namespaces others = .ok bindings' := by
  rw [Bindings.declare, List.foldlM_cons] at h
  unfold AttributesRead.add
  split at h
  · next short hshort =>
    cases hbind : r.bindings.bind short entry.2 with
    | error flaw =>
        rw [hbind] at h
        cases h
    | ok bindings'' =>
        rw [hbind] at h
        refine ⟨bindings'', ?_, h⟩
        simp only [hshort, hbind]
        rfl
  · next hshort =>
    refine ⟨r.bindings, ?_, h⟩
    simp only [hshort]

theorem addWritten_all {raws : List RawAttribute} {written : List (Text × Text)}
    (hraws : List.Forall₂ RawAttribute.IsWritten raws written) (tagAt : Nat) (place : Nat → Nat)
    {r : AttributesRead} (hnodup : (written.map (·.1)).Nodup)
    (hfresh : ∀ entry ∈ written, ∀ value ∈ r.values, value.1 ≠ entry.1)
    (hbind : r.bindings.declare d.namespaces written = .ok bindings') :
    raws.foldlM (AttributesRead.addWritten d [] tagAt place) r =
      .ok ⟨written.reverse ++ r.values, bindings'⟩ := by
  induction hraws generalizing r with
  | nil =>
      obtain rfl := Except.ok.inj hbind
      rfl
  | @cons raw entry raws written hraw _ ih =>
      obtain ⟨bindings'', hadd, hothers⟩ := add_eq_ok hbind
      rw [List.map_cons, List.nodup_cons] at hnodup
      have hnext (other : Text × Text) (hother : other ∈ written) (value : Text × Text)
          (hvalue : value ∈ entry :: r.values) : value.1 ≠ other.1 := by
        rcases List.mem_cons.1 hvalue with rfl | hvalue
        · exact fun heq => hnodup.1 (heq ▸ List.mem_map_of_mem hother)
        · exact hfresh other (List.mem_cons_of_mem _ hother) value hvalue
      rw [List.foldlM_cons, addWritten_ok hraw (hfresh entry List.mem_cons_self), hadd]
      simpa using ih hnodup.2 hnext hothers

/-- A start tag with these written attributes opens an element of this name. -/
structure OpensAs (d : Definitions) (bindings : Bindings) (word : Text)
    (written : List (Text × Text)) (bindings' : Bindings) (name : Name)
    (attributes : List (Name × Text)) : Prop where
  undeclared : d.attributes = []
  nodup : (written.map (·.1)).Nodup
  declares : bindings.declare d.namespaces written = .ok bindings'
  named : if d.namespaces then
      AttributesRead.named bindings' written [] = .ok attributes ∧
        bindings'.elementName word = .ok name
    else name = ⟨[], word⟩ ∧ attributes = written.map fun entry => (⟨[], entry.1⟩, entry.2)

theorem OpensAs.openElement {word : Text} {written : List (Text × Text)} {name : Name}
    {attributes : List (Name × Text)}
    (h : OpensAs d bindings word written bindings' name attributes) {raws : List RawAttribute}
    (hraws : List.Forall₂ RawAttribute.IsWritten raws written) (opened : List OpenElement)
    (events : List (Nat × Event)) (tagAt : Nat) (place : Nat → Nat) :
    Content.openElement ⟨d, bindings, opened, events⟩ tagAt place word raws =
      .ok ⟨d, bindings', ⟨word, bindings⟩ :: opened,
        (tagAt, .opened name attributes) :: events⟩ := by
  have hdeclared : d.attributesOf word = [] := by
    rw [Definitions.attributesOf, h.undeclared]
    rfl
  have hread := addWritten_all hraws tagAt place (r := ⟨[], bindings⟩)
    h.nodup (fun _ _ _ hvalue => absurd hvalue List.not_mem_nil) h.declares
  have hnamed := h.named
  simp only [Content.openElement, hdeclared, hread, List.foldlM_nil, ok_bind]
  split at hnamed
  · next hns =>
    have hvalues : (written.reverse ++ []).reverse = written := by simp
    simp only [if_pos hns, hvalues, hnamed, ok_bind, pure, Except.pure, mapError_ok]
  · next hns =>
    obtain ⟨rfl, rfl⟩ := hnamed
    simp [hns, pure, Except.pure]

/-- Behind the first character of a tag's name, at a place among the elements. -/
structure Lexer.IsOpening (s : Lexer) (isStrict : Bool) (d : Definitions) (bindings : Bindings)
    (opened : List OpenElement) (told : List Event) (first : Char) : Prop where
  namespaces : s.namespaces = d.namespaces
  depth : s.depth = opened.length
  zone : s.zone = .content
  mode : s.mode = .tagName [first] .none
  fault : (s.reading isStrict).fault = none
  reading : ∃ events, (s.reading isStrict).part = .root ⟨d, bindings, opened, events⟩ ∧
    events.map (·.2) = told

/-- The attributes in a start tag, as they are written. -/
def writeAttributes (written : List (Text × Text)) : Text :=
  written.flatMap fun entry => writeAttribute entry.1 entry.2

theorem opens_tag (hopened : opened ≠ []) {s : Lexer} {told : List Event}
    (hs : s.IsAt isStrict d ⟨bindings, opened, behindText⟩ told) {first : Char}
    (hfirst : isNameStart first = true) :
    ∃ s', s.Scans ['<', first] s' ∧ s'.IsOpening isStrict d bindings opened told first := by
  obtain ⟨n, hn⟩ : ∃ n, opened.length = n + 1 :=
    Nat.exists_eq_succ_of_ne_zero (by simpa using hopened)
  have hplace : s.AtText d.namespaces (n + 1) behindText := hn ▸ hs.place
  have hname (place index : Nat) :
      (s.placed .markup place index).Goes [first] (.tagName [first] .none) :=
    Lexer.goes_of_go (by simp [Lexer.step, Lexer.inMarkup, beginsName, hfirst])
  obtain ⟨place, index, hscan⟩ := (Lexer.goes_markup hplace).append hname
  obtain ⟨events, hreading, htold⟩ := hs.reading
  refine ⟨_, hscan, hplace.namespaces, hplace.depth.trans hn.symm, hplace.content, rfl, ?_,
    events, ?_, htold⟩
  · exact congrArg Reading.fault hreading
  · refine (congrArg Reading.part hreading).trans ?_
    simp [Reading.ofContent, Spot.content, hopened]

section Tags

variable {s : Lexer} {told : List Event} {first : Char} {rest : Text}
  (hs : s.IsOpening isStrict d bindings opened told first) (hname : IsTagName (first :: rest))
  {written : List (Text × Text)}
  (hwritten : ∀ entry ∈ written, IsTagName entry.1 ∧ ∀ c ∈ entry.2, isForbidden c = false)
  {name : Name} {attributes : List (Name × Text)}
  (hopens : OpensAs d bindings (first :: rest) written bindings' name attributes)

include hs hname hwritten hopens

theorem scans_opened : ∃ s', s.Scans (rest ++ writeAttributes written ++ ['>']) s' ∧
    s'.IsAt isStrict d ⟨bindings', ⟨first :: rest, bindings⟩ :: opened, false⟩
      (.opened name attributes :: told) := by
  obtain ⟨events, hpart, htold⟩ := hs.reading
  obtain ⟨s', place, raws, stop, hraws, hscan, htokens, hplace⟩ :=
    Lexer.scans_startTag hs.namespaces hs.depth hs.zone hname hs.mode hwritten
  refine ⟨s', hscan, ⟨hplace, (place, .opened name attributes) :: events, ?_, by simp [htold]⟩⟩
  rw [Lexer.reading_of_tokens [_]
    (hplace.namespaces.trans hs.namespaces.symm) htokens]
  refine Reading.take_root hpart hs.fault ?_
  simp only [Content.take, Content.takeToken, hopens.openElement hraws, Bool.false_eq_true,
    if_false]
  rfl

theorem scans_emptied {gap : Text} (hgap : gap = [] ∨ gap = [' ']) :
    ∃ s', s.Scans (rest ++ writeAttributes written ++ (gap ++ ['/', '>'])) s' ∧
    s'.IsAt isStrict d ⟨bindings, opened, false⟩ (.closed :: .opened name attributes :: told) := by
  obtain ⟨events, hpart, htold⟩ := hs.reading
  obtain ⟨s', place, raws, stop, hraws, hscan, htokens, hplace⟩ :=
    Lexer.scans_emptyTag hs.namespaces hs.depth hs.zone hname hs.mode hwritten hgap
  refine ⟨s', hscan, ⟨hplace, (stop, .closed) :: (place, .opened name attributes) :: events, ?_,
    by simp [htold]⟩⟩
  rw [Lexer.reading_of_tokens [_]
    (hplace.namespaces.trans hs.namespaces.symm) htokens]
  refine Reading.take_root hpart hs.fault ?_
  simp only [Content.take, Content.takeToken, hopens.openElement hraws, if_true]
  rfl

end Tags

/-! ## Elements -/

/-- The text is an element at these places, be it the root, and tells these events. -/
def TellsElement (isStrict : Bool) (d : Definitions) (bindings : Bindings)
    (opened : List OpenElement) (t : Text) (events : List Event) : Prop :=
  ∃ first rest, t = '<' :: first :: rest ∧ isNameStart first = true ∧
    ∀ (s : Lexer) (told : List Event), s.IsOpening isStrict d bindings opened told first →
      ∃ s', s.Scans rest s' ∧
        s'.IsAt isStrict d ⟨bindings, opened, false⟩ (events.reverse ++ told)

theorem TellsElement.tells (h : TellsElement isStrict d bindings opened t events)
    (hopened : opened ≠ []) :
    Tells isStrict d ⟨bindings, opened, behindText⟩ ⟨bindings, opened, false⟩ t events := by
  intro s told hs
  obtain ⟨first, rest, rfl, hfirst, h⟩ := h
  obtain ⟨s₁, hscan, hs₁⟩ := opens_tag hopened hs hfirst
  obtain ⟨s', hscan', hs'⟩ := h s₁ told hs₁
  exact ⟨s', hscan.append hscan', hs'⟩

section Elements

variable {word : Text} (hname : IsTagName word) {written : List (Text × Text)}
  (hwritten : ∀ entry ∈ written, IsTagName entry.1 ∧ ∀ c ∈ entry.2, isForbidden c = false)
  {name : Name} {attributes : List (Name × Text)}
  (hopens : OpensAs d bindings word written bindings' name attributes)

include hname hwritten hopens

theorem tellsElement
    (hinside : Tells isStrict d ⟨bindings', ⟨word, bindings⟩ :: opened, false⟩
      ⟨bindings', ⟨word, bindings⟩ :: opened, behindText⟩ t events) :
    TellsElement isStrict d bindings opened
      ('<' :: word ++ writeAttributes written ++ '>' :: t ++ '<' :: '/' :: (word ++ ['>']))
      (.opened name attributes :: events ++ [.closed]) := by
  obtain ⟨first, rest, rfl, hfirst⟩ := hname.cons
  refine ⟨first, _, rfl, hfirst, fun s told hs => ?_⟩
  obtain ⟨s₁, hscan, hs₁⟩ := scans_opened hs hname hwritten hopens
  obtain ⟨s', hscan', hs'⟩ := (hinside.append (tells_endTag hname)) s₁ _ hs₁
  exact ⟨s', by simpa using hscan.append hscan', by simpa using hs'⟩

theorem tellsElement_empty {gap : Text} (hgap : gap = [] ∨ gap = [' ']) :
    TellsElement isStrict d bindings opened
      ('<' :: word ++ writeAttributes written ++ (gap ++ ['/', '>']))
      [.opened name attributes, .closed] := by
  obtain ⟨first, rest, rfl, hfirst⟩ := hname.cons
  refine ⟨first, _, rfl, hfirst, fun s told hs => ?_⟩
  exact scans_emptied hs hname hwritten hopens hgap

end Elements

/-! ## Documents -/

/-- Everything before the root has been read, and the root is opened with these definitions. -/
structure Lexer.IsBeforeRoot (s : Lexer) (isStrict : Bool) (d : Definitions) : Prop where
  namespaces : s.namespaces = d.namespaces
  depth : s.depth = 0
  mode : s.mode = .start ∨ s.mode = .between
  reading : ∀ place, (s.reading isStrict).take (place, .rootStart) =
    ⟨.root ⟨d, .initial, [], []⟩, [], none⟩

/-- The scanner at the start of a document. -/
def Lexer.initial (namespaces : Bool) : Lexer := ⟨namespaces, .prolog, .start, 0, 0, 0, []⟩

theorem Lexer.isBeforeRoot_initial (namespaces : Bool) :
    (Lexer.initial namespaces).IsBeforeRoot isStrict (.initial namespaces) :=
  ⟨rfl, rfl, .inl rfl, fun _ => rfl⟩

theorem opens_root {s : Lexer} (hs : s.IsBeforeRoot isStrict d) {first : Char}
    (hfirst : isNameStart first = true) :
    ∃ s', s.Scans ['<', first] s' ∧ s'.IsOpening isStrict d .initial [] [] first := by
  obtain ⟨s', place, hscan, htokens, hns, hdepth, hzone, hmode⟩ :=
    Lexer.scans_rootOpen hs.mode hfirst
  have hreading : s'.reading isStrict = ⟨.root ⟨d, .initial, [], []⟩, [], none⟩ := by
    rw [Lexer.reading_of_tokens [_] hns htokens]
    exact hs.reading place
  exact ⟨s', hscan, hns.trans hs.namespaces, hdepth.trans hs.depth, hzone, hmode,
    congrArg Reading.fault hreading, [], congrArg Reading.part hreading, rfl⟩

/-- A document of one element, behind what stands before it, tells what the element tells. -/
theorem TellsElement.ofDocument {head : Text} {s : Lexer}
    (hhead : (Lexer.initial d.namespaces).Scans head s) (hs : s.IsBeforeRoot isStrict d)
    (h : TellsElement isStrict d .initial [] t events) :
    ∃ list, Events.ofDocument d.namespaces isStrict (head ++ t ++ ['\n']) = ⟨list, none⟩ ∧
      list.map (·.2) = events := by
  obtain ⟨first, rest, rfl, hfirst, h⟩ := h
  obtain ⟨s₁, hscan₁, hs₁⟩ := opens_root hs hfirst
  obtain ⟨s₂, hscan₂, hs₂⟩ := h s₁ [] hs₁
  obtain ⟨s₃, place, hscan₃, htokens, hplace⟩ := Lexer.scans_space hs₂.place
  obtain ⟨list, hread, hlist⟩ := hs₂.reading
  have hfinish : s₃.finish = ⟨s₃.tokens.reverse, none⟩ := by
    have hmode : s₃.mode = .between := hplace.mode
    have hzone : s₃.zone = .epilog := hplace.zone
    simp [Lexer.finish, hmode, hzone]
  have htokens' : Tokens.ofDocument d.namespaces (head ++ '<' :: first :: rest ++ ['\n']) =
      ⟨s₃.tokens.reverse, none⟩ := by
    have hscan := ((hhead.append hscan₁).append hscan₂).append hscan₃
    rw [← hfinish]
    simp only [Lexer.Scans, Lexer.initial, List.append_assoc, List.cons_append,
      List.nil_append] at hscan
    simp only [Tokens.ofDocument, List.append_assoc, List.cons_append, hscan]
  have hreading : s₃.reading isStrict = ⟨.epilog, list, none⟩ := by
    rw [Lexer.reading_of_tokens [_]
      (hplace.namespaces.trans hs₂.place.namespaces.symm) htokens, hread]
    rfl
  refine ⟨list.reverse, ?_, by simp [hlist]⟩
  rw [Lexer.reading, hplace.namespaces] at hreading
  simp only [Events.ofDocument, Events.ofTokens, htokens', hreading, Option.or_none]

/-! ## Faults -/

/-- The text cannot be scanned at this place. -/
def Breaks (isStrict : Bool) (d : Definitions) (spot : Spot) (t : Text) : Prop :=
  ∀ (s : Lexer) (told : List Event), s.IsAt isStrict d spot told → s.Fails t

theorem Tells.breaks (h : Tells isStrict d spot spot' t events)
    (h' : Breaks isStrict d spot' t') : Breaks isStrict d spot (t ++ t') := by
  intro s told hs
  obtain ⟨s', hscan, hs'⟩ := h s told hs
  exact hscan.fails (h' s' _ hs')

theorem Breaks.append (h : Breaks isStrict d spot t) (more : Text) :
    Breaks isStrict d spot (t ++ more) :=
  fun s told hs => (h s told hs).append more

/-- The text would be an element, but cannot be scanned. -/
def BreaksElement (isStrict : Bool) (d : Definitions) (bindings : Bindings)
    (opened : List OpenElement) (t : Text) : Prop :=
  ∃ first rest, t = '<' :: first :: rest ∧ isNameStart first = true ∧
    ∀ (s : Lexer) (told : List Event), s.IsOpening isStrict d bindings opened told first →
      s.Fails rest

theorem BreaksElement.breaks (h : BreaksElement isStrict d bindings opened t)
    (hopened : opened ≠ []) : Breaks isStrict d ⟨bindings, opened, behindText⟩ t := by
  intro s told hs
  obtain ⟨first, rest, rfl, hfirst, h⟩ := h
  obtain ⟨s', hscan, hs'⟩ := opens_tag hopened hs hfirst
  exact hscan.fails (h s' told hs')

theorem breaksElement_of_inside {word : Text} (hname : IsTagName word)
    {written : List (Text × Text)}
    (hwritten : ∀ entry ∈ written, IsTagName entry.1 ∧ ∀ c ∈ entry.2, isForbidden c = false)
    {name : Name} {attributes : List (Name × Text)}
    (hopens : OpensAs d bindings word written bindings' name attributes)
    (hinside : Breaks isStrict d ⟨bindings', ⟨word, bindings⟩ :: opened, false⟩ t) (more : Text) :
    BreaksElement isStrict d bindings opened
      ('<' :: word ++ writeAttributes written ++ '>' :: t ++ more) := by
  obtain ⟨first, rest, rfl, hfirst⟩ := hname.cons
  refine ⟨first, rest ++ writeAttributes written ++ ['>'] ++ (t ++ more), by simp, hfirst,
    fun s told hs => ?_⟩
  obtain ⟨s₁, hscan, hs₁⟩ := scans_opened hs hname hwritten hopens
  exact hscan.fails ((hinside s₁ _ hs₁).append more)

/-- An attribute whose name does not begin behind its colon breaks its element. -/
theorem breaksElement_of_attribute (hns : d.namespaces = true) {word : Text}
    (hname : IsTagName word) {before : List (Text × Text)}
    (hbefore : ∀ entry ∈ before, IsTagName entry.1 ∧ ∀ c ∈ entry.2, isForbidden c = false)
    {short : Text} (hshort : isPlainName short = true) {c : Char} (hc : isNameStart c = false)
    (others value more : Text) :
    BreaksElement isStrict d bindings opened
      ('<' :: word ++ writeAttributes before ++
        writeAttribute (short ++ ':' :: c :: others) value ++ more) := by
  obtain ⟨first, rest, rfl, hfirst⟩ := hname.cons
  refine ⟨first, (rest ++ writeAttributes before) ++
    (writeAttribute (short ++ ':' :: c :: others) value ++ more), by simp, hfirst,
    fun s told hs => ?_⟩
  obtain ⟨⟨raws, mode⟩, ⟨-, hmode⟩, place, index, hscan⟩ :=
    Lexer.goes_tag hname hs.mode hbefore
  refine hscan.fails (Lexer.Fails.append ?_ more)
  exact Lexer.fails_attribute (s := s.placed mode place index) hmode
    (hs.namespaces.trans hns) hshort hc others value

/-- A document of an element that breaks has a fault. -/
theorem BreaksElement.ofDocument {head : Text} {s : Lexer}
    (hhead : (Lexer.initial d.namespaces).Scans head s) (hs : s.IsBeforeRoot isStrict d)
    (h : BreaksElement isStrict d .initial [] t) :
    (Events.ofDocument d.namespaces isStrict (head ++ t ++ ['\n'])).fault ≠ none := by
  obtain ⟨first, rest, rfl, hfirst, h⟩ := h
  obtain ⟨s', hscan, hs'⟩ := opens_root hs hfirst
  obtain ⟨tokens, fault, hfails⟩ := ((hhead.append hscan).fails (h s' [] hs')).append ['\n']
  simp only [Lexer.initial, List.append_assoc, List.cons_append, List.nil_append] at hfails
  simp [Events.ofDocument, Events.ofTokens, Tokens.ofDocument, hfails]

end BundleHook.Markup
