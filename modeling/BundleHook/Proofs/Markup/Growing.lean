import BundleHook.Proofs.Markup.Scanning

/-!
# Tokens are only added

Whatever a document holds, and whether its names have namespaces or not, a scan only adds tokens to
those it has, and the characters among them are legal ones.
-/

namespace BundleHook.Markup

/-- A character of the text is one that a document may hold. -/
def Token.IsLegal : Token → Prop
  | char c => isForbidden c = false
  | _ => True

/-- Legal tokens have been added to those there were, latest first. -/
def AreAdded (all tokens : List (Nat × Token)) : Prop :=
  ∃ added, all = added ++ tokens ∧ ∀ entry ∈ added, entry.2.IsLegal

theorem AreAdded.refl (tokens : List (Nat × Token)) : AreAdded tokens tokens := ⟨[], rfl, nofun⟩

theorem AreAdded.trans {tokens tokens' tokens'' : List (Nat × Token)} (h : AreAdded tokens' tokens)
    (h' : AreAdded tokens'' tokens') : AreAdded tokens'' tokens := by
  obtain ⟨added, rfl, hlegal⟩ := h
  obtain ⟨added', rfl, hlegal'⟩ := h'
  refine ⟨added' ++ added, by rw [List.append_assoc], fun entry hentry => ?_⟩
  exact (List.mem_append.1 hentry).elim (hlegal' entry) (hlegal entry)

theorem AreAdded.cons {all tokens : List (Nat × Token)} (h : AreAdded all tokens)
    {entry : Nat × Token} (hentry : entry.2.IsLegal) : AreAdded (entry :: all) tokens := by
  obtain ⟨added, rfl, hlegal⟩ := h
  exact ⟨entry :: added, rfl, List.forall_mem_cons.2 ⟨hentry, hlegal⟩⟩

/-- The scanner has added legal tokens to these. -/
def Lexer.Extends (s : Lexer) (tokens : List (Nat × Token)) : Prop := AreAdded s.tokens tokens

/-- A step adds legal tokens to these, unless it finds a fault. -/
def Step.Extends (step : Step) (tokens : List (Nat × Token)) : Prop :=
  ∀ s, step = .ok s → s.Extends tokens

namespace Lexer

section Steps

variable {s : Lexer} {tokens : List (Nat × Token)} {c : Char} {mode : Mode} {token : Token}

@[simp] theorem extends_go : Step.Extends (s.go mode) tokens ↔ s.Extends tokens := by
  simp [Step.Extends, go, Extends]

@[simp] theorem extends_opens : Step.Extends (s.opens mode) tokens ↔ s.Extends tokens := by
  simp [Step.Extends, opens, Extends]

theorem Extends.add (h : s.Extends tokens) (htoken : token.IsLegal) :
    (s.add token).Extends tokens := AreAdded.cons h htoken

theorem Extends.emit (h : s.Extends tokens) (htoken : token.IsLegal) :
    Step.Extends (s.emit token mode) tokens := extends_go.2 (h.add htoken)

@[simp] theorem extends_refuse : Step.Extends (s.refuse c) tokens := by
  intro s' h
  unfold refuse at h
  split at h <;> cases h

@[simp] theorem extends_error (fault : Fault) : Step.Extends (.error fault) tokens := by
  rintro s' h
  cases h

theorem extends_ite {p : Prop} [Decidable p] {step step' : Step} (h : p → step.Extends tokens)
    (h' : ¬p → step'.Extends tokens) : Step.Extends (if p then step else step') tokens := by
  split
  · exact h ‹_›
  · exact h' ‹_›

variable (h : s.Extends tokens)

include h

theorem inText_extends : Step.Extends (s.inText c) tokens := by
  have h' : ({ s with first := s.index } : Lexer).Extends tokens := h
  unfold inText
  split_ifs with hlt hamp hreturn hbracket hc
  · exact extends_opens.2 h'
  · exact extends_opens.2 h'
  · exact h'.emit (by show isForbidden '\n' = false; decide)
  · exact h'.emit (by subst hbracket; show isForbidden ']' = false; decide)
  · exact extends_refuse
  · exact h'.emit (by simpa [Token.IsLegal] using hc)

theorem inCdata_extends : Step.Extends (s.inCdata c) tokens := by
  have h' : ({ s with first := s.index } : Lexer).Extends tokens := h
  unfold inCdata
  split_ifs with hbracket hreturn hc
  · exact extends_opens.2 h'
  · exact h'.emit (by show isForbidden '\n' = false; decide)
  · exact extends_refuse
  · exact h'.emit (by simpa [Token.IsLegal] using hc)

theorem closeTag_extends (tag : OpenTag) (isEmpty : Bool) :
    Step.Extends (s.closeTag tag isEmpty) tokens := by
  unfold closeTag
  split_ifs
  · exact Extends.emit (s := { s with zone := .epilog }) h trivial
  · exact h.emit trivial
  · exact Extends.emit (s := { s with depth := s.depth + 1 }) h trivial

theorem closeElement_extends (name : Text) : Step.Extends (s.closeElement name) tokens := by
  unfold closeElement
  split_ifs
  · exact Extends.emit (s := { s with zone := .epilog, depth := 0 }) h trivial
  · exact Extends.emit (s := { s with depth := s.depth - 1 }) h trivial

theorem inMarkup_extends : Step.Extends (s.inMarkup c) tokens := by
  unfold inMarkup
  split_ifs <;> simp [h]

theorem inTagSpace_extends (tag : OpenTag) : Step.Extends (s.inTagSpace tag c) tokens := by
  unfold inTagSpace
  split_ifs <;> simp [h, closeTag_extends h]

theorem inTagName_extends (name : Text) (colon : Colon) :
    Step.Extends (s.inTagName name colon c) tokens := by
  unfold inTagName
  split_ifs <;> simp [h, closeTag_extends h]

theorem inAttributeName_extends (tag : OpenTag) (index : Nat) (name : Text) (colon : Colon) :
    Step.Extends (s.inAttributeName tag index name colon c) tokens := by
  unfold inAttributeName
  split_ifs <;> simp [h]

theorem inValue_extends (a : OpenAttribute) (afterReturn : Bool) :
    Step.Extends (s.inValue a afterReturn c) tokens := by
  unfold inValue
  split_ifs <;> simp [h]

theorem inBetween_extends : Step.Extends (s.inBetween c) tokens := by
  have h' : ({ s with first := s.index } : Lexer).Extends tokens := h
  unfold inBetween
  dsimp only
  repeat' with_reducible refine extends_ite (fun _ => ?_) fun _ => ?_
  all_goals first
    | exact extends_opens.2 h'
    | exact h'.emit trivial
    | exact extends_refuse

theorem inDeclMarkup_extends : Step.Extends (s.inDeclMarkup c) tokens := by
  have hroot : ({ s.add .rootStart with zone := .content } : Lexer).Extends tokens :=
    h.add (show Token.IsLegal .rootStart from trivial)
  unfold inDeclMarkup
  split_ifs <;> simp [h, inMarkup_extends hroot]

theorem inWord_extends (kind : WordKind) (word : Text) :
    Step.Extends (s.inWord kind word c) tokens := by
  have hword := inBetween_extends (c := c) (h.add (show Token.IsLegal (.word kind word.reverse) from trivial))
  have hmarked : Step.Extends (s.emit (.markedWord word.reverse) .between) tokens :=
    h.emit trivial
  unfold inWord
  split_ifs <;> first | exact hword | exact hmarked | (cases kind <;> simp [h])

theorem inPercent_extends : Step.Extends (s.inPercent c) tokens := by
  unfold inPercent
  split_ifs <;> simp [h, inBetween_extends (h.add (show Token.IsLegal .percent from trivial))]

theorem inBracket_extends : Step.Extends (s.inBracket c) tokens := by
  unfold inBracket
  split_ifs <;> simp [h, inBetween_extends (h.add (show Token.IsLegal .bracketClose from trivial))]

theorem closeInstruction_extends (target body : Text) :
    Step.Extends (s.closeInstruction target body) tokens := by
  refine h.emit ?_
  split <;> trivial

theorem afterTarget_extends (target : Text) : Step.Extends (s.afterTarget target c mode) tokens := by
  unfold afterTarget
  split_ifs <;> simp [h]

theorem inCdataOpen_extends (read : Text) : Step.Extends (s.inCdataOpen read) tokens := by
  unfold inCdataOpen
  dsimp only
  split_ifs <;> simp [h]

omit h in
/-- A step only adds legal tokens. -/
theorem step_extends (s : Lexer) (c : Char) : Step.Extends (s.step c) s.tokens := by
  have h : s.Extends s.tokens := .refl s.tokens
  have hplain (token : Token) (htoken : token.IsLegal) : (s.add token).Extends s.tokens :=
    h.add htoken
  have hbracket : (Token.char ']').IsLegal := by show isForbidden ']' = false; decide
  cases hs : s.mode
  all_goals unfold step; simp only [hs]
  case textBracket two =>
    refine extends_ite (fun _ => extends_refuse) fun _ => ?_
    refine extends_ite (fun hc => ?_) fun _ => inText_extends h
    subst hc
    exact Extends.emit (s := { s with first := s.index }) h hbracket
  case cdataBracket two =>
    cases two
    · exact extends_ite (fun _ => extends_go.2 h) fun _ => inCdata_extends (h.add hbracket)
    · refine extends_ite (fun _ => extends_go.2 h) fun _ => ?_
      refine extends_ite (fun _ => extends_go.2 (h.add hbracket)) fun _ => ?_
      exact inCdata_extends ((h.add hbracket).add hbracket)
  case declPercent word =>
    refine extends_ite (fun _ => extends_error _) fun _ => ?_
    exact inPercent_extends (h.add (show Token.IsLegal (.declOpen word.reverse) from trivial))
  case brackets =>
    refine extends_ite (fun _ => h.emit trivial) fun _ => ?_
    exact inBracket_extends (h.add (show Token.IsLegal .bracketClose from trivial))
  -- what is left reads on, or adds a token that is no character
  all_goals
    repeat' with_reducible first | refine extends_ite (fun _ => ?_) fun _ => ?_ | split
    all_goals first
      | exact extends_go.2 h
      | exact h.emit trivial
      | exact extends_refuse
      | exact inText_extends h
      | exact inCdata_extends h
      | exact inMarkup_extends h
      | exact inCdataOpen_extends h _
      | exact closeInstruction_extends h _ _
      | exact afterTarget_extends h _
      | exact closeElement_extends h _
      | exact closeTag_extends h _ _
      | exact inTagName_extends h _ _
      | exact inTagSpace_extends h _
      | exact inAttributeName_extends h _ _ _ _
      | exact inValue_extends h _ _
      | exact inBetween_extends h
      | exact inDeclMarkup_extends h
      | exact inWord_extends h _ _
      | exact inPercent_extends h
      | exact inBracket_extends h
      | exact inBetween_extends (hplain _ trivial)

end Steps

/-- At the end of a document a token may be added that the end completes. -/
theorem finish_extends (s : Lexer) : AreAdded s.finish.list.reverse s.tokens := by
  have hadd (token : Token) (htoken : token.IsLegal) :
      AreAdded (s.add token).tokens.reverse.reverse s.tokens := by
    rw [List.reverse_reverse]
    exact AreAdded.cons (.refl s.tokens) htoken
  have hsame : AreAdded s.tokens.reverse.reverse s.tokens := by
    rw [List.reverse_reverse]
    exact .refl s.tokens
  unfold finish
  dsimp only
  split
  case h_2 => split <;> exact hsame
  all_goals first | exact hsame | exact hadd _ trivial

end Lexer

/-! ## Whole documents -/

/-- The tokens so far. -/
def Scan.tokens : Scan → List (Nat × Token)
  | running s => s.tokens
  | failed tokens _ => tokens

theorem Scan.foldl_extends (scan : Scan) (t : Text) :
    AreAdded (t.foldl Scan.step scan).tokens scan.tokens := by
  induction t generalizing scan with
  | nil => exact .refl scan.tokens
  | cons c t ih =>
      refine AreAdded.trans ?_ (ih (scan.step c))
      cases scan with
      | running s =>
          rw [Scan.step]
          split
          · next next hnext => exact Lexer.step_extends s c next hnext
          · exact .refl s.tokens
      | failed tokens fault => exact .refl tokens

theorem Tokens.ofDocument_extends {namespaces : Bool} {head : Text} {s : Lexer}
    (hhead : (⟨namespaces, .prolog, .start, 0, 0, 0, []⟩ : Lexer).Scans head s) (rest : Text) :
    AreAdded (Tokens.ofDocument namespaces (head ++ rest)).list.reverse s.tokens := by
  unfold Lexer.Scans at hhead
  have hrest := Scan.foldl_extends (.running s) rest
  rw [Tokens.ofDocument, List.foldl_append, hhead]
  split
  · next s' hs' =>
    rw [hs'] at hrest
    exact hrest.trans (Lexer.finish_extends s')
  · next tokens fault hfailed =>
    rw [hfailed] at hrest
    rwa [List.reverse_reverse]

/-- What a scan has told of a document's beginning are the first tokens of the document. -/
theorem Tokens.prefix_ofDocument {namespaces : Bool} {head : Text} {s : Lexer}
    (hhead : (⟨namespaces, .prolog, .start, 0, 0, 0, []⟩ : Lexer).Scans head s) (rest : Text) :
    s.tokens.reverse <+: (Tokens.ofDocument namespaces (head ++ rest)).list := by
  obtain ⟨added, hlist, -⟩ := Tokens.ofDocument_extends hhead rest
  refine ⟨added.reverse, ?_⟩
  rw [← List.reverse_append, ← hlist, List.reverse_reverse]

/-- The characters of a document's text are legal. -/
theorem Tokens.isLegal_of_mem (namespaces : Bool) (t : Text) :
    ∀ entry ∈ (Tokens.ofDocument namespaces t).list, entry.2.IsLegal := by
  obtain ⟨added, hlist, hlegal⟩ := Tokens.ofDocument_extends
    (.nil ⟨namespaces, .prolog, .start, 0, 0, 0, []⟩) t
  intro entry hentry
  rw [List.append_nil] at hlist
  exact hlegal entry (hlist ▸ List.mem_reverse.2 hentry)

theorem Tokens.isLegal_of_mem_ofEntity (namespaces : Bool) (t : Text) :
    ∀ entry ∈ (Tokens.ofEntity namespaces t).list, entry.2.IsLegal := by
  have hall : AreAdded (Tokens.ofEntity namespaces t).list.reverse [] := by
    have hscan := Scan.foldl_extends (.running ⟨namespaces, .content, .text, 0, 0, 1, []⟩) t
    unfold Tokens.ofEntity
    split
    · next s hs =>
      rw [hs] at hscan
      unfold Lexer.finishEntity
      split
      all_goals first
        | rw [List.reverse_reverse]; exact hscan
        | exact hscan.trans (Lexer.finish_extends s)
    · next tokens fault hfailed =>
      rw [hfailed] at hscan
      rwa [List.reverse_reverse]
  obtain ⟨added, hlist, hlegal⟩ := hall
  intro entry hentry
  rw [List.append_nil] at hlist
  exact hlegal entry (hlist ▸ List.mem_reverse.2 hentry)

end BundleHook.Markup
