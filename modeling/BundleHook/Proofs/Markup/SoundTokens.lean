import BundleHook.Proofs.Markup.Retelling

/-!
# Tokens of a document

What the tokens of any document with namespaces are like: names are names, characters may stand in a
document, and comments can be written again. Every mode of the scanner keeps what it has read of a
token in that form.
-/

namespace BundleHook.Markup

/-! ## Names -/

theorem isPlainName_singleton {c : Char} (h : isNameStart c = true) : isPlainName [c] = true := by
  simp [isPlainName, h]

theorem isPlainName_concat {word : Text} (h : isPlainName word = true) {c : Char}
    (hc : isNameMore c = true) : isPlainName (word ++ [c]) = true := by
  cases word with
  | nil => cases h
  | cons first rest => simpa [isPlainName, hc] using h

/-- A name as a declaration may spell it: behind a colon it may begin as no other name does. -/
inductive IsDeclaredName : Text → Prop where
  | plain {word : Text} (h : isPlainName word = true) : IsDeclaredName word
  | prefixed {short part : Text} (hshort : isPlainName short = true) (hne : part ≠ [])
      (hpart : ∀ c ∈ part, isNameMore c = true) : IsDeclaredName (short ++ ':' :: part)

theorem IsTagName.isDeclaredName {word : Text} (h : IsTagName word) : IsDeclaredName word := by
  cases h with
  | plain h => exact .plain h
  | prefixed hshort hpart =>
      refine .prefixed hshort ?_ fun _ => isNameMore_of_isPlainName hpart
      rintro rfl
      cases hpart

/-- What has been read of a name of a tag or an attribute. -/
def Colon.Fits : Colon → Text → Prop
  | none, word => isPlainName word = true
  | fresh, word => ∃ short, isPlainName short = true ∧ word = short ++ [':']
  | past, word =>
    ∃ short part, isPlainName short = true ∧ isPlainName part = true ∧ word = short ++ ':' :: part

/-- What has been read of a word of a declaration. -/
def WordKind.Fits : WordKind → Text → Prop
  | name, word => isPlainName word = true
  | prefixed, word => ∃ short part, isPlainName short = true ∧ part ≠ [] ∧
      (∀ c ∈ part, isNameMore c = true) ∧ word = short ++ ':' :: part
  | token, _ => True

theorem Colon.Fits.isTagName {colon : Colon} {word : Text} (h : colon.Fits word)
    (hcolon : colon ≠ .fresh) : IsTagName word := by
  cases colon with
  | none => exact .plain h
  | fresh => exact absurd rfl hcolon
  | past =>
      obtain ⟨short, part, hshort, hpart, rfl⟩ := h
      exact .prefixed hshort hpart

theorem Colon.Fits.concat {colon : Colon} {word : Text} (h : colon.Fits word)
    (hcolon : colon ≠ .fresh) {c : Char} (hc : isNameMore c = true) : colon.Fits (word ++ [c]) := by
  cases colon with
  | none => exact isPlainName_concat h hc
  | fresh => exact absurd rfl hcolon
  | past =>
      obtain ⟨short, part, hshort, hpart, rfl⟩ := h
      exact ⟨short, part ++ [c], hshort, isPlainName_concat hpart hc, by simp⟩

theorem Colon.Fits.start {word : Text} (h : Colon.fresh.Fits word) {c : Char}
    (hc : isNameStart c = true) : Colon.past.Fits (word ++ [c]) := by
  obtain ⟨short, hshort, rfl⟩ := h
  exact ⟨short, [c], hshort, isPlainName_singleton hc, by simp⟩

theorem WordKind.Fits.concat {kind : WordKind} {word : Text} (h : kind.Fits word) {c : Char}
    (hc : isNameMore c = true) : kind.Fits (word ++ [c]) := by
  cases kind with
  | name => exact isPlainName_concat h hc
  | prefixed =>
      obtain ⟨short, part, hshort, -, hpart, rfl⟩ := h
      refine ⟨short, part ++ [c], hshort, by simp, fun d hd => ?_, by simp⟩
      rcases List.mem_append.1 hd with hd | hd
      · exact hpart d hd
      · exact List.mem_singleton.1 hd ▸ hc
  | token => trivial

/-! ## Comments -/

theorem IsCommentBody.append {body more : Text} (h : IsCommentBody body)
    (hmore : IsCommentBody more) : IsCommentBody (body ++ more) := by
  induction h with
  | nil => exact hmore
  | plain hc _ ih => exact .plain hc ih
  | hyphen hc _ ih => exact .hyphen hc ih

theorem IsCommentBody.tail {c : Char} {rest : Text} (h : IsCommentBody (c :: rest))
    (hc : c ≠ '-') : IsCommentBody rest := by
  cases h with
  | plain _ hrest => exact hrest
  | hyphen => exact absurd rfl hc

theorem unifyLines_cons (c : Char) (rest : Text) :
    ∃ d more, Text.unifyLines (c :: rest) = d :: more ∧ (d = '\n' ∨ d = c) := by
  unfold Text.unifyLines
  split
  · next h => cases h
  · exact ⟨_, _, rfl, .inl rfl⟩
  · next heq =>
    obtain ⟨rfl, rfl⟩ := List.cons.inj heq
    refine ⟨_, _, rfl, ?_⟩
    split
    · exact .inl rfl
    · exact .inr rfl

theorem IsCommentBody.unifyLines {body : Text} (h : IsCommentBody body) :
    IsCommentBody (Text.unifyLines body) := by
  induction body using Text.unifyLines.induct with
  | case1 => exact .nil
  | case2 rest ih =>
      exact .plain (by decide) (ih ((h.tail (by decide)).tail (by decide)))
  | case3 c rest hpair ih =>
      have hunify : Text.unifyLines (c :: rest) =
          (if c = '\r' then '\n' else c) :: Text.unifyLines rest := by
        rw [Text.unifyLines]
        exact hpair
      cases h with
      | plain hc hrest =>
          rw [hunify]
          refine .plain ?_ (ih hrest)
          split
          · decide
          · exact hc
      | @hyphen d rest hd hrest =>
          obtain ⟨e, more, hmore, he⟩ := unifyLines_cons d rest
          have hne : e ≠ '-' := by
            rcases he with rfl | rfl
            · decide
            · exact hd
          have hwhole := ih (.plain hd hrest)
          rw [hunify, if_neg (by decide), hmore]
          rw [hmore] at hwhole
          exact .hyphen hne (hwhole.tail hne)

/-- What is left of the lines is a line feed or a character of the text. -/
theorem mem_unifyLines {t : Text} {c : Char} (h : c ∈ Text.unifyLines t) :
    c = '\n' ∨ (c ∈ t ∧ c ≠ '\r') := by
  induction t using Text.unifyLines.induct with
  | case1 => cases h
  | case2 rest ih =>
      rcases List.mem_cons.1 h with rfl | h
      · exact .inl rfl
      · exact (ih h).imp_right (And.imp_left fun hc => by simp [hc])
  | case3 d rest hpair ih =>
      rw [Text.unifyLines] at h
      · rcases List.mem_cons.1 h with rfl | h
        · split
          · exact .inl rfl
          · next hne => exact .inr ⟨List.mem_cons_self, hne⟩
        · exact (ih h).imp_right (And.imp_left (List.mem_cons_of_mem d))
      · exact hpair

/-- Carriage returns become line feeds, and everything else stays. -/
theorem mem_unifyLines_of_mem {t : Text} {c : Char} (h : c ∈ t) :
    (if c = '\r' then '\n' else c) ∈ Text.unifyLines t := by
  induction t using Text.unifyLines.induct with
  | case1 => cases h
  | case2 rest ih =>
      rw [Text.unifyLines]
      rcases List.mem_cons.1 h with rfl | h
      · exact List.mem_cons_self
      · rcases List.mem_cons.1 h with rfl | h
        · exact List.mem_cons_self
        · exact List.mem_cons_of_mem _ (ih h)
  | case3 d rest hpair ih =>
      rw [Text.unifyLines]
      · rcases List.mem_cons.1 h with rfl | h
        · exact List.mem_cons_self
        · exact List.mem_cons_of_mem _ (ih h)
      · exact hpair

theorem isLegal_unifyLines {t : Text} (h : IsLegal t) : IsLegal (Text.unifyLines t) := by
  intro c hc
  rcases mem_unifyLines hc with rfl | ⟨hc, -⟩
  · decide
  · exact h c hc

theorem return_notMem_unifyLines (t : Text) : '\r' ∉ Text.unifyLines t := fun h => by
  rcases mem_unifyLines h with h | ⟨-, h⟩
  · revert h
    decide
  · exact h rfl

/-- A text without carriage returns keeps its lines. -/
theorem unifyLines_of_notMem {t : Text} (h : '\r' ∉ t) : Text.unifyLines t = t := by
  induction t with
  | nil => rfl
  | cons c rest ih =>
      rw [List.mem_cons, not_or] at h
      rw [Text.unifyLines, if_neg (Ne.symm h.1), ih h.2]
      rintro _ rfl
      exact absurd rfl h.1

/-! ## What tokens are like -/

def Piece.IsSound : Piece → Prop
  | plain c => isForbidden c = false
  | _ => True

def RawAttribute.IsSound (raw : RawAttribute) : Prop :=
  IsTagName raw.name ∧ ∀ entry ∈ raw.value, entry.2.IsSound

/-- A comment that can be written again. -/
structure IsComment (t : Text) : Prop where
  body : IsCommentBody t
  legal : IsLegal t

theorem isComment_nil : IsComment [] := ⟨.nil, fun _ h => absurd h List.not_mem_nil⟩

theorem IsComment.concat {body : Text} (h : IsComment body) {c : Char} (hc : c ≠ '-')
    (hlegal : isForbidden c = false) : IsComment (body ++ [c]) := by
  refine ⟨h.body.append (.plain hc .nil), fun d hd => ?_⟩
  rcases List.mem_append.1 hd with hd | hd
  · exact h.legal d hd
  · exact List.mem_singleton.1 hd ▸ hlegal

theorem IsComment.concat_hyphen {body : Text} (h : IsComment body) {c : Char} (hc : c ≠ '-')
    (hlegal : isForbidden c = false) : IsComment (body ++ ['-', c]) := by
  refine ⟨h.body.append (.hyphen hc .nil), fun d hd => ?_⟩
  rcases List.mem_append.1 hd with hd | hd
  · exact h.legal d hd
  · rcases List.mem_cons.1 hd with rfl | hd
    · decide
    · exact List.mem_singleton.1 hd ▸ hlegal

def Token.IsSound : Token → Prop
  | startTag name attributes _ _ => IsTagName name ∧ ∀ raw ∈ attributes, raw.IsSound
  | char c => isForbidden c = false
  | comment body => IsComment body ∧ '\r' ∉ body
  | word kind spelled => kind.Fits spelled
  | _ => True

def OpenTag.IsSound (tag : OpenTag) : Prop :=
  IsTagName tag.name ∧ ∀ raw ∈ tag.attributes, raw.IsSound

def OpenAttribute.IsSound (a : OpenAttribute) : Prop :=
  a.tag.IsSound ∧ IsTagName a.name ∧ isForbidden a.quote = false ∧
    ∀ entry ∈ a.pieces, entry.2.IsSound

theorem OpenAttribute.IsSound.push {a : OpenAttribute} (h : a.IsSound) {entry : Nat × Piece}
    (hentry : entry.2.IsSound) :
    OpenAttribute.IsSound { a with pieces := entry :: a.pieces } := by
  refine ⟨h.1, h.2.1, h.2.2.1, fun other hother => ?_⟩
  rcases List.mem_cons.1 hother with rfl | hother
  · exact hentry
  · exact h.2.2.2 other hother

/-- What a mode has read of a token fits the token; it is kept latest character first. -/
def Mode.IsSound : Mode → Prop
  | comment body | commentDash body | commentDashes body => IsComment body.reverse
  | tagName name colon => colon.Fits name.reverse
  | tagSpace tag | tagSlash tag | valueEnd tag => tag.IsSound
  | attributeName tag _ name colon => tag.IsSound ∧ colon.Fits name.reverse
  | attributeSpace tag _ name | attributeEquals tag _ name => tag.IsSound ∧ IsTagName name
  | value a _ | valueReference a _ _ => a.IsSound
  | word kind read => kind.Fits read.reverse
  | wordColon read => Colon.fresh.Fits read.reverse
  | literal quote _ => isForbidden quote = false
  | cdataOpen read => read.length < 6
  | _ => True

/-- The tokens that have been read, in a document with namespaces. -/
def Lexer.HasSound (s : Lexer) : Prop := s.namespaces = true ∧ ∀ entry ∈ s.tokens, entry.2.IsSound

/-- A step keeps to sound tokens, unless it finds a fault. -/
def Step.IsSound (step : Step) : Prop := ∀ s, step = .ok s → s.HasSound ∧ s.mode.IsSound

namespace Lexer

variable {s : Lexer} {c : Char} {mode : Mode} {token : Token}

@[simp] theorem isSound_go : Step.IsSound (s.go mode) ↔ s.HasSound ∧ mode.IsSound := by
  simp [Step.IsSound, go, HasSound]

@[simp] theorem isSound_opens : Step.IsSound (s.opens mode) ↔ s.HasSound ∧ mode.IsSound := by
  simp [Step.IsSound, opens, HasSound]

@[simp] theorem hasSound_add : (s.add token).HasSound ↔ s.HasSound ∧ token.IsSound := by
  simp [HasSound, add]
  tauto

@[simp] theorem hasSound_first (first : Nat) : { s with first }.HasSound ↔ s.HasSound := Iff.rfl

@[simp] theorem isSound_emit :
    Step.IsSound (s.emit token mode) ↔ (s.HasSound ∧ token.IsSound) ∧ mode.IsSound := by
  simp [emit]

@[simp] theorem isSound_refuse : Step.IsSound (s.refuse c) := by
  intro s' h
  unfold refuse at h
  split at h <;> cases h

@[simp] theorem isSound_error (fault : Fault) : Step.IsSound (.error fault) := by
  rintro s' h
  cases h

theorem isSound_ite {p : Prop} [Decidable p] {step step' : Step} (h : p → step.IsSound)
    (h' : ¬p → step'.IsSound) : Step.IsSound (if p then step else step') := by
  split
  · exact h ‹_›
  · exact h' ‹_›

theorem isForbidden_of_isQuote (h : (c = '"' || c = '\x27') = true) : isForbidden c = false := by
  rcases (by simpa using h : c = '"' ∨ c = '\x27') with rfl | rfl <;> decide

theorem inText_isSound (h : s.HasSound) : Step.IsSound (s.inText c) := by
  have hfeed : isForbidden '\n' = false := by decide
  have hbracket : isForbidden ']' = false := by decide
  unfold inText
  split_ifs <;> simp_all [Mode.IsSound, Token.IsSound]

theorem inCdata_isSound (h : s.HasSound) : Step.IsSound (s.inCdata c) := by
  have hfeed : isForbidden '\n' = false := by decide
  unfold inCdata
  split_ifs <;> simp_all [Mode.IsSound, Token.IsSound]

theorem closeTag_isSound (h : s.HasSound) {tag : OpenTag} (htag : tag.IsSound) (isEmpty : Bool) :
    Step.IsSound (s.closeTag tag isEmpty) := by
  have htoken : (Token.startTag tag.name tag.attributes.reverse isEmpty (s.index + 1)).IsSound :=
    ⟨htag.1, fun raw hraw => htag.2 raw (List.mem_reverse.1 hraw)⟩
  unfold closeTag
  split_ifs <;> rw [isSound_emit] <;> exact ⟨⟨h, htoken⟩, trivial⟩

theorem closeElement_isSound (h : s.HasSound) (name : Text) :
    Step.IsSound (s.closeElement name) := by
  unfold closeElement
  split_ifs <;> rw [isSound_emit] <;> exact ⟨⟨h, trivial⟩, trivial⟩

theorem beginsName_eq (h : s.HasSound) : beginsName s.namespaces c = isNameStart c := by
  simp [beginsName, h.1]

theorem continuesName_eq (h : s.HasSound) : continuesName s.namespaces c = isNameMore c := by
  simp [continuesName, h.1]

theorem inMarkup_isSound (h : s.HasSound) : Step.IsSound (s.inMarkup c) := by
  unfold inMarkup
  rw [beginsName_eq h]
  split_ifs with hc
  · exact isSound_go.2 ⟨h, isPlainName_singleton hc⟩
  all_goals simp [h, Mode.IsSound]

theorem inTagSpace_isSound (h : s.HasSound) {tag : OpenTag} (htag : tag.IsSound) :
    Step.IsSound (s.inTagSpace tag c) := by
  unfold inTagSpace
  rw [beginsName_eq h]
  split_ifs with hspace hclose hslash hc
  · exact isSound_go.2 ⟨h, htag⟩
  · exact closeTag_isSound h htag false
  · exact isSound_go.2 ⟨h, htag⟩
  · exact isSound_go.2 ⟨h, htag, isPlainName_singleton hc⟩
  · exact isSound_refuse

theorem inTagName_isSound (h : s.HasSound) {name : Text} {colon : Colon}
    (hname : colon.Fits name.reverse) : Step.IsSound (s.inTagName name colon c) := by
  have htag (hcolon : colon ≠ .fresh) : OpenTag.IsSound ⟨name.reverse, []⟩ :=
    ⟨hname.isTagName hcolon, fun _ hmem => absurd hmem List.not_mem_nil⟩
  unfold inTagName
  rw [continuesName_eq h]
  split_ifs with hfresh hc hc hmark hnone hspace hclose hslash
  · subst hfresh
    exact isSound_go.2 ⟨h, by simpa [Mode.IsSound] using hname.start hc⟩
  · exact isSound_refuse
  · exact isSound_go.2 ⟨h, by simpa [Mode.IsSound] using hname.concat hfresh hc⟩
  · subst hmark hnone
    exact isSound_go.2 ⟨h, name.reverse, hname, by simp⟩
  · exact isSound_refuse
  · exact isSound_go.2 ⟨h, htag hfresh⟩
  · exact closeTag_isSound h (htag hfresh) false
  · exact isSound_go.2 ⟨h, htag hfresh⟩
  · exact isSound_refuse

theorem inAttributeName_isSound (h : s.HasSound) {tag : OpenTag} (htag : tag.IsSound) {index : Nat}
    {name : Text} {colon : Colon} (hname : colon.Fits name.reverse) :
    Step.IsSound (s.inAttributeName tag index name colon c) := by
  unfold inAttributeName
  rw [continuesName_eq h]
  split_ifs with hfresh hc hc hmark hnone hequals hspace
  · subst hfresh
    exact isSound_go.2 ⟨h, htag, by simpa using hname.start hc⟩
  · exact isSound_refuse
  · exact isSound_go.2 ⟨h, htag, by simpa using hname.concat hfresh hc⟩
  · subst hmark hnone
    exact isSound_go.2 ⟨h, htag, name.reverse, hname, by simp⟩
  · exact isSound_refuse
  · exact isSound_go.2 ⟨h, htag, hname.isTagName hfresh⟩
  · exact isSound_go.2 ⟨h, htag, hname.isTagName hfresh⟩
  · exact isSound_refuse

theorem inValue_isSound (h : s.HasSound) {a : OpenAttribute} (ha : a.IsSound)
    (afterReturn : Bool) : Step.IsSound (s.inValue a afterReturn c) := by
  unfold inValue
  split_ifs with hquote hamp hlt hlegal hfeed hspace
  · refine isSound_go.2 ⟨h, ha.1.1, fun raw hraw => ?_⟩
    rcases List.mem_cons.1 hraw with rfl | hraw
    · exact ⟨ha.2.1, fun entry hentry => ha.2.2.2 entry (List.mem_reverse.1 hentry)⟩
    · exact ha.1.2 raw hraw
  · exact isSound_go.2 ⟨h, ha⟩
  · exact isSound_refuse
  · exact isSound_refuse
  · exact isSound_go.2 ⟨h, ha⟩
  · exact isSound_go.2 ⟨h, OpenAttribute.IsSound.push ha trivial⟩
  · exact isSound_go.2 ⟨h, OpenAttribute.IsSound.push ha (by simpa [Piece.IsSound] using hlegal)⟩

theorem inBetween_isSound (h : s.HasSound) : Step.IsSound (s.inBetween c) := by
  have hopens {mode : Mode} (hmode : mode.IsSound) :
      Step.IsSound ({ s with first := s.index }.opens mode) := isSound_opens.2 ⟨h, hmode⟩
  have hemit {token : Token} (htoken : token.IsSound) :
      Step.IsSound ({ s with first := s.index }.emit token .between) :=
    isSound_emit.2 ⟨⟨h, htoken⟩, trivial⟩
  have hbegins : beginsName s.namespaces c = isNameStart c := beginsName_eq h
  unfold inBetween
  simp only [hbegins]
  repeat' with_reducible refine isSound_ite (fun _ => ?_) fun _ => ?_
  all_goals first
    | exact hopens trivial
    | exact hopens (isForbidden_of_isQuote ‹_›)
    | exact hemit trivial
    | exact hopens (isPlainName_singleton ‹isNameStart c = true›)
    | exact isSound_refuse

theorem inDeclMarkup_isSound (h : s.HasSound) : Step.IsSound (s.inDeclMarkup c) := by
  unfold inDeclMarkup
  split_ifs
  · exact isSound_go.2 ⟨h, trivial⟩
  · exact isSound_go.2 ⟨h, trivial⟩
  · exact inMarkup_isSound (s := { s.add .rootStart with zone := .content })
      ((@hasSound_add s .rootStart).2 ⟨h, trivial⟩)
  · exact isSound_refuse

theorem inWord_isSound (h : s.HasSound) {kind : WordKind} {word : Text}
    (hword : kind.Fits word.reverse) : Step.IsSound (s.inWord kind word c) := by
  unfold inWord
  rw [continuesName_eq h]
  split_ifs with hc hends hmark hsign htoken
  · exact isSound_go.2 ⟨h, by simpa [Mode.IsSound] using hword.concat hc⟩
  · exact inBetween_isSound (hasSound_add.2 ⟨h, hword⟩)
  · subst hmark
    cases kind with
    | name => exact isSound_go.2 ⟨h, word.reverse, hword, by simp⟩
    | prefixed => exact isSound_go.2 ⟨h, trivial⟩
    | token => exact isSound_go.2 ⟨h, trivial⟩
  · exact isSound_refuse
  · exact isSound_emit.2 ⟨⟨h, trivial⟩, trivial⟩
  · exact isSound_refuse

theorem inPercent_isSound (h : s.HasSound) : Step.IsSound (s.inPercent c) := by
  unfold inPercent
  split_ifs
  · exact isSound_go.2 ⟨h, trivial⟩
  · exact inBetween_isSound (hasSound_add.2 ⟨h, trivial⟩)
  · exact isSound_refuse

theorem inBracket_isSound (h : s.HasSound) : Step.IsSound (s.inBracket c) := by
  unfold inBracket
  split_ifs
  · exact isSound_go.2 ⟨h, trivial⟩
  · exact inBetween_isSound (hasSound_add.2 ⟨h, trivial⟩)

theorem closeInstruction_isSound (h : s.HasSound) (target body : Text) :
    Step.IsSound (s.closeInstruction target body) := by
  have hmode : s.neutral.IsSound := by
    unfold neutral
    split <;> trivial
  refine isSound_emit.2 ⟨⟨h, ?_⟩, hmode⟩
  split <;> trivial

theorem afterTarget_isSound (h : s.HasSound) (target : Text) (hmode : mode.IsSound) :
    Step.IsSound (s.afterTarget target c mode) := by
  unfold afterTarget
  split_ifs
  · exact isSound_refuse
  · exact isSound_go.2 ⟨h, hmode⟩

theorem inCdataOpen_isSound (h : s.HasSound) (read : Text) : Step.IsSound (s.inCdataOpen read) := by
  unfold inCdataOpen
  simp only
  split_ifs with hshort
  · exact isSound_go.2 ⟨h, hshort⟩
  · exact isSound_go.2 ⟨h, trivial⟩
  · exact isSound_error _

/-- A step inside a comment. -/
theorem step_comment_isSound (h : s.HasSound) {body : Text} (hbody : IsComment body.reverse)
    (hs : s.mode = .comment body ∨ s.mode = .commentDash body ∨ s.mode = .commentDashes body) :
    Step.IsSound (s.step c) := by
  unfold step
  rcases hs with hs | hs | hs <;> simp only [hs]
  · refine isSound_ite (fun _ => isSound_go.2 ⟨h, hbody⟩) fun hc => ?_
    refine isSound_ite (fun _ => isSound_refuse) fun hlegal => isSound_go.2 ⟨h, ?_⟩
    simpa [Mode.IsSound] using hbody.concat hc (by simpa using hlegal)
  · refine isSound_ite (fun _ => isSound_go.2 ⟨h, hbody⟩) fun hc => ?_
    refine isSound_ite (fun _ => isSound_refuse) fun hlegal => isSound_go.2 ⟨h, ?_⟩
    simpa [Mode.IsSound] using hbody.concat_hyphen hc (by simpa using hlegal)
  · refine isSound_ite (fun _ => isSound_emit.2 ⟨⟨h, ?_⟩, ?_⟩) fun _ => isSound_refuse
    · exact ⟨⟨hbody.body.unifyLines, isLegal_unifyLines hbody.legal⟩, return_notMem_unifyLines _⟩
    · unfold neutral
      split <;> trivial

/-- A step behind the name of an attribute or in its value. -/
theorem step_attribute_isSound (h : s.HasSound) {tag : OpenTag} {index : Nat} {name : Text}
    (htag : tag.IsSound) (hname : IsTagName name)
    (hs : s.mode = .attributeSpace tag index name ∨ s.mode = .attributeEquals tag index name) :
    Step.IsSound (s.step c) := by
  unfold step
  rcases hs with hs | hs <;> simp only [hs]
  · refine isSound_ite (fun _ => isSound_go.2 ⟨h, htag, hname⟩) fun _ => ?_
    exact isSound_ite (fun _ => isSound_go.2 ⟨h, htag, hname⟩) fun _ => isSound_refuse
  · refine isSound_ite (fun hquote => isSound_go.2 ⟨h, htag, hname, ?_, ?_⟩) fun _ => ?_
    · exact isForbidden_of_isQuote hquote
    · exact fun _ hmem => absurd hmem List.not_mem_nil
    · exact isSound_ite (fun _ => isSound_go.2 ⟨h, htag, hname⟩) fun _ => isSound_refuse

/-- A step inside a section without markup. -/
theorem step_cdata_isSound (h : s.HasSound) (two : Bool)
    (hs : s.mode = .cdata ∨ s.mode = .cdataReturn ∨ s.mode = .cdataBracket two) :
    Step.IsSound (s.step c) := by
  have hbracket : (Token.char ']').IsSound := by
    show isForbidden ']' = false
    decide
  unfold step
  rcases hs with hs | hs | hs
  · simp only [hs]
    exact inCdata_isSound h
  · simp only [hs]
    exact isSound_ite (fun _ => isSound_go.2 ⟨h, trivial⟩) fun _ => inCdata_isSound h
  · cases two <;> simp only [hs]
    · refine isSound_ite (fun _ => isSound_go.2 ⟨h, trivial⟩) fun _ => inCdata_isSound ?_
      exact hasSound_add.2 ⟨h, hbracket⟩
    · refine isSound_ite (fun _ => isSound_go.2 ⟨h, trivial⟩) fun _ => ?_
      refine isSound_ite (fun _ => isSound_go.2 ⟨hasSound_add.2 ⟨h, hbracket⟩, trivial⟩)
        fun _ => inCdata_isSound ?_
      exact hasSound_add.2 ⟨hasSound_add.2 ⟨h, hbracket⟩, hbracket⟩

/-- A step from sound tokens leads to sound tokens. -/
theorem step_isSound (h : s.HasSound) (hmode : s.mode.IsSound) (c : Char) :
    Step.IsSound (s.step c) := by
  have hplain (token : Token) (htoken : token.IsSound) : (s.add token).HasSound :=
    hasSound_add.2 ⟨h, htoken⟩
  cases hs : s.mode <;> rw [hs] at hmode
  case comment body => exact step_comment_isSound h hmode (.inl hs)
  case commentDash body => exact step_comment_isSound h hmode (.inr (.inl hs))
  case commentDashes body => exact step_comment_isSound h hmode (.inr (.inr hs))
  case cdata => exact step_cdata_isSound h false (.inl hs)
  case cdataReturn => exact step_cdata_isSound h false (.inr (.inl hs))
  case cdataBracket two => exact step_cdata_isSound h two (.inr (.inr hs))
  case attributeSpace => exact step_attribute_isSound h hmode.1 hmode.2 (.inl hs)
  case attributeEquals => exact step_attribute_isSound h hmode.1 hmode.2 (.inr hs)
  all_goals unfold step; simp only [hs]
  case text => exact inText_isSound h
  case textReturn =>
    exact isSound_ite (fun _ => isSound_go.2 ⟨h, trivial⟩) fun _ => inText_isSound h
  case textBracket two =>
    refine isSound_ite (fun _ => isSound_refuse) fun _ => ?_
    refine isSound_ite (fun hc => ?_) fun _ => inText_isSound h
    refine isSound_emit.2 ⟨⟨h, ?_⟩, trivial⟩
    show isForbidden c = false
    rw [hc]
    decide
  case textReference mode =>
    split
    · exact isSound_go.2 ⟨h, trivial⟩
    · exact isSound_emit.2 ⟨⟨h, trivial⟩, trivial⟩
    · exact isSound_refuse
  case markup => exact inMarkup_isSound h
  case bang =>
    refine isSound_ite (fun _ => isSound_go.2 ⟨h, trivial⟩) fun _ => ?_
    exact isSound_ite (fun _ => isSound_go.2 ⟨h, Nat.succ_pos 5⟩) fun _ => isSound_refuse
  case bangDash =>
    exact isSound_ite (fun _ => isSound_go.2 ⟨h, isComment_nil⟩) fun _ => isSound_refuse
  case cdataOpen read => exact inCdataOpen_isSound h _
  case instructionTarget target =>
    refine isSound_ite (fun _ => isSound_go.2 ⟨h, trivial⟩) fun _ => ?_
    refine isSound_ite (fun _ => afterTarget_isSound h _ trivial) fun _ => ?_
    exact isSound_ite (fun _ => afterTarget_isSound h _ trivial) fun _ => isSound_refuse
  case instructionMark target body =>
    refine isSound_ite (fun _ => closeInstruction_isSound h _ _) fun _ => ?_
    refine isSound_ite (fun _ => isSound_go.2 ⟨h, trivial⟩) fun _ => ?_
    exact isSound_ite (fun _ => isSound_refuse) fun _ => isSound_go.2 ⟨h, trivial⟩
  case instructionBare target =>
    exact isSound_ite (fun _ => closeInstruction_isSound h _ _) fun _ => isSound_refuse
  case endName name =>
    refine isSound_ite (fun _ => isSound_go.2 ⟨h, trivial⟩) fun _ => ?_
    refine isSound_ite (fun _ => isSound_go.2 ⟨h, trivial⟩) fun _ => ?_
    exact isSound_ite (fun _ => closeElement_isSound h _) fun _ => isSound_refuse
  case endSpace name =>
    refine isSound_ite (fun _ => isSound_go.2 ⟨h, trivial⟩) fun _ => ?_
    exact isSound_ite (fun _ => closeElement_isSound h _) fun _ => isSound_refuse
  case tagName name colon => exact inTagName_isSound h hmode
  case tagSpace tag => exact inTagSpace_isSound h hmode
  case tagSlash tag =>
    exact isSound_ite (fun _ => closeTag_isSound h hmode true) fun _ => isSound_refuse
  case attributeName tag index name colon => exact inAttributeName_isSound h hmode.1 hmode.2
  case value a afterReturn => exact inValue_isSound h hmode afterReturn
  case valueReference a index mode =>
    split
    · exact isSound_go.2 ⟨h, hmode⟩
    · exact isSound_go.2 ⟨h, OpenAttribute.IsSound.push hmode trivial⟩
    · exact isSound_refuse
  case valueEnd tag =>
    refine isSound_ite (fun _ => isSound_go.2 ⟨h, hmode⟩) fun _ => ?_
    refine isSound_ite (fun _ => isSound_go.2 ⟨h, hmode⟩) fun _ => ?_
    exact isSound_ite (fun _ => closeTag_isSound h hmode false) fun _ => isSound_refuse
  case start => exact isSound_ite (fun _ => isSound_go.2 ⟨h, trivial⟩) fun _ => inBetween_isSound h
  case between => exact inBetween_isSound h
  case declMarkup => exact inDeclMarkup_isSound h
  case literal quote body =>
    refine isSound_ite (fun _ => isSound_go.2 ⟨h, trivial⟩) fun _ => ?_
    exact isSound_ite (fun _ => isSound_refuse) fun _ => isSound_go.2 ⟨h, hmode⟩
  case word kind word => exact inWord_isSound h hmode
  case wordColon word =>
    refine isSound_ite (fun hc => isSound_go.2 ⟨h, ?_⟩) fun _ => inWord_isSound h trivial
    obtain ⟨short, hshort, hread⟩ := hmode
    exact ⟨short, [c], hshort, by simp, by simpa using hc, by simp [hread]⟩
  case percent => exact inPercent_isSound h
  case bracket => exact inBracket_isSound h
  case declPercent word =>
    refine isSound_ite (fun _ => isSound_error _) fun _ => ?_
    exact inPercent_isSound (hplain (.declOpen word.reverse) trivial)
  case brackets =>
    refine isSound_ite (fun _ => isSound_emit.2 ⟨⟨h, trivial⟩, trivial⟩) fun _ => ?_
    exact inBracket_isSound (hplain .bracketClose trivial)
  -- what is left only reads on, or adds a token that is sound as such
  all_goals
    repeat' with_reducible refine isSound_ite (fun _ => ?_) fun _ => ?_
    all_goals first
      | exact isSound_go.2 ⟨h, trivial⟩
      | exact isSound_emit.2 ⟨⟨h, trivial⟩, trivial⟩
      | exact isSound_refuse
      | (refine inBetween_isSound (hplain _ ?_); trivial)

end Lexer

/-! ## Whole texts -/

def Tokens.IsSound (tokens : Tokens) : Prop := ∀ entry ∈ tokens.list, entry.2.IsSound

def Scan.IsSound : Scan → Prop
  | running s => s.HasSound ∧ s.mode.IsSound
  | failed tokens _ => ∀ entry ∈ tokens, entry.2.IsSound

theorem Scan.step_isSound {scan : Scan} (h : scan.IsSound) (c : Char) : (scan.step c).IsSound := by
  cases scan with
  | running s =>
      cases hstep : s.step c with
      | ok next =>
          simp only [step, hstep]
          exact Lexer.step_isSound h.1 h.2 c next hstep
      | error fault =>
          simp only [step, hstep]
          exact h.1.2
  | failed tokens fault => exact h

theorem Scan.foldl_isSound (scan : Scan) (h : scan.IsSound) (t : Text) :
    (t.foldl Scan.step scan).IsSound := by
  induction t generalizing scan with
  | nil => exact h
  | cons c t ih => exact ih _ (step_isSound h c)

theorem Lexer.finish_isSound {s : Lexer} (h : s.HasSound) (hmode : s.mode.IsSound) :
    s.finish.IsSound := by
  have hstopped (fault : Option Fault) : Tokens.IsSound ⟨s.tokens.reverse, fault⟩ :=
    fun entry hentry => h.2 entry (List.mem_reverse.1 hentry)
  have hlast (token : Token) (htoken : token.IsSound) (fault : Option Fault) :
      Tokens.IsSound ⟨(s.add token).tokens.reverse, fault⟩ :=
    fun entry hentry => (hasSound_add.2 ⟨h, htoken⟩).2 entry (List.mem_reverse.1 hentry)
  unfold finish
  cases hs : s.mode <;> rw [hs] at hmode
  case word kind word => exact hlast (.word kind word.reverse) hmode _
  case literalEnd body => exact hlast (.literal body) trivial _
  case keyword word => exact hlast (.keyword word.reverse) trivial _
  case between =>
    simp only
    split <;> exact hstopped _
  all_goals exact hstopped _

theorem Lexer.finishEntity_isSound {s : Lexer} (h : s.HasSound) (hmode : s.mode.IsSound) :
    s.finishEntity.IsSound := by
  unfold finishEntity
  split
  case h_5 => exact finish_isSound h hmode
  all_goals exact fun entry hentry => h.2 entry (List.mem_reverse.1 hentry)

theorem Tokens.ofDocument_isSound (t : Text) : (Tokens.ofDocument true t).IsSound := by
  have hscan := Scan.foldl_isSound (.running ⟨true, .prolog, .start, 0, 0, 0, []⟩)
    ⟨⟨rfl, fun _ h => absurd h List.not_mem_nil⟩, trivial⟩ t
  unfold ofDocument
  split
  · next s hs =>
    rw [hs] at hscan
    exact Lexer.finish_isSound hscan.1 hscan.2
  · next tokens fault hs =>
    rw [hs] at hscan
    exact fun entry hentry => hscan entry (List.mem_reverse.1 hentry)

theorem Tokens.ofEntity_isSound (t : Text) : (Tokens.ofEntity true t).IsSound := by
  have hscan := Scan.foldl_isSound (.running ⟨true, .content, .text, 0, 0, 1, []⟩)
    ⟨⟨rfl, fun _ h => absurd h List.not_mem_nil⟩, trivial⟩ t
  unfold ofEntity
  split
  · next s hs =>
    rw [hs] at hscan
    exact Lexer.finishEntity_isSound hscan.1 hscan.2
  · next tokens fault hs =>
    rw [hs] at hscan
    exact fun entry hentry => hscan entry (List.mem_reverse.1 hentry)

end BundleHook.Markup
