import BundleHook.Proofs.Markup.Growing
import BundleHook.Proofs.Markup.SoundDeclarations

/-!
# Legal characters

Whatever the document, with namespaces or without, the characters that it tells are ones that a
document may hold: those of its text, and those that references stand for.
-/

namespace BundleHook.Markup

/-- A character that is told is one that a document may hold. -/
def Event.IsLegal : Event → Prop
  | char c => isForbidden c = false
  | _ => True

/-- The characters that have been told are legal. -/
def AreLegal (events : List (Nat × Event)) : Prop := ∀ entry ∈ events, entry.2.IsLegal

theorem AreLegal.cons {events : List (Nat × Event)} (h : AreLegal events) {entry : Nat × Event}
    (hentry : entry.2.IsLegal) : AreLegal (entry :: events) :=
  List.forall_mem_cons.2 ⟨hentry, h⟩

namespace Content

variable {c c' : Content}

theorem openElement_legal (h : AreLegal c.events) {tagAt : Nat} {place : Nat → Nat}
    {written : Text} {attributes : List RawAttribute}
    (hopen : c.openElement tagAt place written attributes = .ok c') : AreLegal c'.events := by
  unfold Content.openElement at hopen
  simp only [bind_eq_ok] at hopen
  obtain ⟨r, -, named, -, hresult⟩ := hopen
  obtain rfl := Except.ok.inj hresult
  exact h.cons trivial

theorem closeElement_legal (h : AreLegal c.events) (offset : Nat) :
    AreLegal (c.closeElement offset).events := by
  unfold Content.closeElement
  split
  · exact h
  · exact h.cons trivial

theorem takeAll_legal (take : Content → Nat × Token → Result)
    (htake : ∀ c entry, AreLegal (Content.events c) → entry.2.IsLegal →
      AreLegal (take c entry).1.events)
    {tokens : List (Nat × Token)} (htokens : ∀ entry ∈ tokens, entry.2.IsLegal)
    (h : AreLegal c.events) : AreLegal (takeAll take c tokens).1.events := by
  induction tokens generalizing c with
  | nil => exact h
  | cons entry tokens ih =>
      have hentry := htake c entry h (htokens entry List.mem_cons_self)
      rw [takeAll]
      split
      · next next heq =>
        rw [heq] at hentry
        exact ih (fun other hother => htokens other (List.mem_cons_of_mem entry hother)) hentry
      · exact hentry

theorem takeReference_legal {enter : (name text : Text) → Content → Result}
    (henter : ∀ name text c, AreLegal (Content.events c) → AreLegal (enter name text c).1.events)
    (h : AreLegal c.events) (offset : Nat) (reference : Reference) :
    AreLegal (takeReference enter offset c reference).1.events := by
  unfold Content.takeReference
  split
  · split
    · next d hd => exact h.cons (isLegal_referredChar? hd)
    · exact h
  · split
    · next d hd => exact h.cons (isLegal_predefinedEntity? hd)
    · split
      · exact henter _ _ _ h
      · exact h.cons trivial
      · exact h
      · split
        · exact h
        · exact h.cons trivial

theorem takeToken_legal {enter : Nat → (name text : Text) → Content → Result}
    (henter : ∀ offset name text c, AreLegal (Content.events c) →
      AreLegal (enter offset name text c).1.events)
    (h : AreLegal c.events) (place : Nat → Nat) (tagNameAt floor : Nat) {entry : Nat × Token}
    (hentry : entry.2.IsLegal) :
    AreLegal (takeToken enter place tagNameAt floor c entry).1.events := by
  obtain ⟨offset, token⟩ := entry
  unfold Content.takeToken
  simp only
  split
  · split
    · exact h
    · next opened hopened =>
      have hopened := openElement_legal h hopened
      simp only
      split
      · exact closeElement_legal hopened _
      · exact hopened
  · split
    · split_ifs
      · exact h
      · exact closeElement_legal h _
      · exact h
    · exact h
  · exact h.cons hentry
  · exact takeReference_legal (henter _) h _ _
  · exact h.cons trivial
  · exact h
  · exact h

theorem takeEntity_legal (budget : Nat) (entered : List Text) (offset : Nat) (name text : Text)
    (h : AreLegal c.events) : AreLegal (takeEntity budget entered offset name text c).1.events := by
  induction budget generalizing entered offset name text c with
  | zero => exact h
  | succ budget ih =>
      unfold Content.takeEntity
      split
      · exact h
      · have htokens := Tokens.isLegal_of_mem_ofEntity c.definitions.namespaces text
        have hall := takeAll_legal (c := c)
          (Content.takeToken (Content.takeEntity budget (name :: entered))
            (fun _ => offset) 0 c.opened.length)
          (fun c entry h hentry => takeToken_legal
            (fun offset other text c h => ih (name :: entered) offset other text h) h _ _ _ hentry)
          htokens h
        simp only
        split
        · next next heq =>
          rw [heq] at hall
          split
          · exact hall
          · split <;> exact hall
        · exact hall

theorem take_legal (h : AreLegal c.events) {entry : Nat × Token} (hentry : entry.2.IsLegal) :
    AreLegal (c.take entry).1.events :=
  takeToken_legal (fun offset name text _ h => takeEntity_legal _ _ offset name text h) h _ _ _
    hentry

end Content

/-! ## Readings -/

/-- The characters that a reading has told are legal, in the root, too. -/
def Reading.IsLegal (r : Reading) : Prop :=
  AreLegal r.events ∧ ∀ c, r.part = .root c → AreLegal c.events

theorem Reading.IsLegal.take {r : Reading} (h : r.IsLegal) {entry : Nat × Token}
    (hentry : entry.2.IsLegal) : (r.take entry).IsLegal := by
  unfold Reading.take
  split
  · exact h
  split
  · next p hp =>
    have hevents : AreLegal (r.takeProlog p entry.1 entry.2).events := by
      intro other hother
      rcases mem_takeProlog hother with hother | hother
      · exact h.1 other hother
      · rw [hother]
        trivial
    refine ⟨hevents, fun c hc => ?_⟩
    simp only [takeProlog] at hc
    split at hc
    · obtain rfl := Part.root.inj hc
      exact hevents
    · cases hc
  · next c hc =>
    have hnext := Content.take_legal (h.2 c hc) hentry
    refine ⟨hnext, fun c' hc' => ?_⟩
    simp only [takeRoot] at hc'
    split at hc'
    · cases hc'
    · obtain rfl := Part.root.inj hc'
      exact hnext
  · next hepilog =>
    unfold takeEpilog
    split <;> exact ⟨h.1, fun c hc => by rw [hepilog] at hc; cases hc⟩

/-- The characters that a document tells are legal. -/
theorem Events.areLegal_ofDocument (namespaces isStrict : Bool) (t : Text) :
    AreLegal (Events.ofDocument namespaces isStrict t).list := by
  have hfold (tokens : List (Nat × Token)) (htokens : ∀ entry ∈ tokens, entry.2.IsLegal)
      (r : Reading) (hr : r.IsLegal) : (tokens.foldl Reading.take r).IsLegal := by
    induction tokens generalizing r with
    | nil => exact hr
    | cons entry tokens ih =>
        exact ih (fun other hother => htokens other (List.mem_cons_of_mem entry hother)) _
          (hr.take (htokens entry List.mem_cons_self))
  have hread := hfold _ (Tokens.isLegal_of_mem namespaces t) (.initial namespaces isStrict)
    ⟨nofun, nofun⟩
  exact fun entry hentry => hread.1 entry (List.mem_reverse.1 hentry)

end BundleHook.Markup
