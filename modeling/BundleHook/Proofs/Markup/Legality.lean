import BundleHook.Proofs.Markup.Layout

/-!
# Legal documents

No mode of the scanner takes a character that a document may not hold, so a text that is read as a
tree is legal; and a tree that is written as a legal text has legal texts.
-/

namespace BundleHook.Markup

/-! ## Characters that no mode takes -/

/-- What holds of all controls and of the two marks holds of every forbidden character. -/
theorem of_isForbidden {c : Char} (hc : isForbidden c = true) {p : Char → Prop}
    (hcontrol : ∀ n < 0x20, p (Char.ofNat n)) (hcutOff : p cutOff) (hgarbled : p garbled) : p c := by
  rw [← Char.ofNat_toNat c]
  simp only [isForbidden, Bool.or_eq_true, Bool.and_eq_true, decide_eq_true_eq, beq_iff_eq] at hc
  rcases hc with (⟨hsmall, -⟩ | hmark) | hmark
  · exact hcontrol _ hsmall
  · rw [hmark]
    exact hcutOff
  · rw [hmark]
    exact hgarbled

section Forbidden

variable {c : Char} (hc : isForbidden c = true)

include hc

theorem ne_of_isForbidden {d : Char} (hd : isForbidden d = false) : c ≠ d := by
  rintro rfl
  rw [hd] at hc
  cases hc

theorem isSpace_of_isForbidden : isSpace c = false := by
  have h₁ := ne_of_isForbidden hc (d := ' ') (by decide)
  have h₂ := ne_of_isForbidden hc (d := '\t') (by decide)
  have h₃ := ne_of_isForbidden hc (d := '\n') (by decide)
  have h₄ := ne_of_isForbidden hc (d := '\r') (by decide)
  simp [isSpace, h₁, h₂, h₃, h₄]

theorem isNameMore_of_isForbidden : isNameMore c = false :=
  of_isForbidden hc (p := fun c => isNameMore c = false) (by decide) (by decide) (by decide)

theorem isNameStart_of_isForbidden : isNameStart c = false := by
  rw [Bool.eq_false_iff]
  intro hstart
  have hmore := isNameMore_of_isNameStart c hstart
  rw [isNameMore_of_isForbidden hc] at hmore
  cases hmore

theorem hexDigit?_of_isForbidden : hexDigit? c = none :=
  of_isForbidden hc (p := fun c => hexDigit? c = none) (by decide) (by decide) (by decide)

theorem isAlpha_of_isForbidden : c.isAlpha = false :=
  of_isForbidden hc (p := fun c => c.isAlpha = false) (by decide) (by decide) (by decide)

theorem isDigit_of_isForbidden : c.isDigit = false :=
  of_isForbidden hc (p := fun c => c.isDigit = false) (by decide) (by decide) (by decide)

end Forbidden

/-- The signs of markup. -/
def signs : Text :=
  ['<', '>', '&', ';', '#', '/', '!', '?', '=', '"', '\x27', ':', '-', '_', '[', ']', '(', ')', '|',
    ',', '*', '+', '%', 'x', '\r', '\n', '\uFEFF']

theorem notMem_signs {c : Char} (hc : isForbidden c = true) : c ∉ signs := fun hmem => by
  have hall : ∀ d ∈ signs, isForbidden d = false := by decide
  rw [hall c hmem] at hc
  cases hc

/-! ## What modes keep -/

/-- What a mode keeps that a later step compares with is legal, and no keyword gets too long. -/
def Mode.IsApt : Mode → Prop
  | value a _ | valueReference a _ _ => isForbidden a.quote = false
  | literal quote _ => isForbidden quote = false
  | cdataOpen read => read.length < 6
  | _ => True

/-- The step finds a fault, or leads to such a mode. -/
def Step.IsApt (step : Step) : Prop := ∀ s, step = .ok s → s.mode.IsApt

namespace Lexer

section Apt

variable (s : Lexer) {c : Char} {mode : Mode} {token : Token}

@[simp] theorem isApt_go : Step.IsApt (s.go mode) ↔ mode.IsApt := by
  simp [Step.IsApt, go]

@[simp] theorem isApt_opens : Step.IsApt (s.opens mode) ↔ mode.IsApt := by
  simp [Step.IsApt, opens]

@[simp] theorem isApt_emit : Step.IsApt (s.emit token mode) ↔ mode.IsApt := by
  simp [emit]

@[simp] theorem isApt_refuse : Step.IsApt (s.refuse c) := by
  intro s' h
  unfold refuse at h
  split at h <;> cases h

@[simp] theorem isApt_error (fault : Fault) : Step.IsApt (.error fault) := by
  rintro s' h
  cases h

theorem isApt_ite {p : Prop} [Decidable p] {step step' : Step} (h : p → step.IsApt)
    (h' : ¬p → step'.IsApt) : Step.IsApt (if p then step else step') := by
  split
  · exact h ‹_›
  · exact h' ‹_›

@[simp] theorem isApt_neutral : s.neutral.IsApt := by
  unfold neutral
  split <;> trivial

theorem inText_isApt : Step.IsApt (s.inText c) := by
  unfold inText
  split_ifs <;> simp [Mode.IsApt]

theorem inCdata_isApt : Step.IsApt (s.inCdata c) := by
  unfold inCdata
  split_ifs <;> simp [Mode.IsApt]

theorem closeTag_isApt (tag : OpenTag) (isEmpty : Bool) : Step.IsApt (s.closeTag tag isEmpty) := by
  unfold closeTag
  split_ifs <;> simp [Mode.IsApt]

theorem closeElement_isApt (name : Text) : Step.IsApt (s.closeElement name) := by
  unfold closeElement
  split_ifs <;> simp [Mode.IsApt]

theorem inMarkup_isApt : Step.IsApt (s.inMarkup c) := by
  unfold inMarkup
  split_ifs <;> simp [Mode.IsApt]

theorem inTagSpace_isApt (tag : OpenTag) : Step.IsApt (s.inTagSpace tag c) := by
  unfold inTagSpace
  split_ifs <;> simp [Mode.IsApt, closeTag_isApt]

theorem inTagName_isApt (name : Text) (colon : Colon) : Step.IsApt (s.inTagName name colon c) := by
  unfold inTagName
  split_ifs <;> simp [Mode.IsApt, closeTag_isApt]

theorem inAttributeName_isApt (tag : OpenTag) (index : Nat) (name : Text) (colon : Colon) :
    Step.IsApt (s.inAttributeName tag index name colon c) := by
  unfold inAttributeName
  split_ifs <;> simp [Mode.IsApt]

theorem inValue_isApt {a : OpenAttribute} (ha : isForbidden a.quote = false) (afterReturn : Bool) :
    Step.IsApt (s.inValue a afterReturn c) := by
  unfold inValue
  split_ifs <;> simp [Mode.IsApt, ha]

theorem inBetween_isApt : Step.IsApt (s.inBetween c) := by
  unfold inBetween
  dsimp only
  repeat' with_reducible refine isApt_ite (fun _ => ?_) fun _ => ?_
  all_goals first
    | exact (isApt_opens _).2 trivial
    | exact (isApt_opens _).2 (isForbidden_of_isQuote ‹_›)
    | exact (isApt_emit _).2 trivial
    | exact isApt_refuse _

theorem inDeclMarkup_isApt : Step.IsApt (s.inDeclMarkup c) := by
  unfold inDeclMarkup
  split_ifs <;> simp [Mode.IsApt, inMarkup_isApt]

theorem inWord_isApt (kind : WordKind) (word : Text) : Step.IsApt (s.inWord kind word c) := by
  unfold inWord
  split_ifs <;> first | exact inBetween_isApt _ | (cases kind <;> simp [Mode.IsApt])

theorem inPercent_isApt : Step.IsApt (s.inPercent c) := by
  unfold inPercent
  split_ifs <;> simp [Mode.IsApt, inBetween_isApt]

theorem inBracket_isApt : Step.IsApt (s.inBracket c) := by
  unfold inBracket
  split_ifs <;> simp [Mode.IsApt, inBetween_isApt]

theorem afterTarget_isApt (target : Text) (h : mode.IsApt) :
    Step.IsApt (s.afterTarget target c mode) := by
  unfold afterTarget
  split_ifs <;> simp [h]

theorem inCdataOpen_isApt (read : Text) : Step.IsApt (s.inCdataOpen read) := by
  unfold inCdataOpen
  dsimp only
  split_ifs <;> simp_all [Mode.IsApt]

/-- Every mode leads to such modes. -/
theorem step_isApt (h : s.mode.IsApt) (c : Char) : Step.IsApt (s.step c) := by
  cases hs : s.mode <;> rw [hs] at h
  all_goals unfold step; simp only [hs]
  case cdataBracket two => cases two <;> simp only <;> split_ifs <;> simp [Mode.IsApt, inCdata_isApt]
  -- what is left goes on to a mode that keeps nothing, or hands the character on
  all_goals
    repeat' with_reducible first | refine isApt_ite (fun _ => ?_) fun _ => ?_ | split
    all_goals first
      | exact (isApt_go _).2 trivial
      | exact (isApt_go _).2 h
      | exact (isApt_go _).2 (isForbidden_of_isQuote ‹_›)
      | exact (isApt_go _).2 (Nat.succ_pos 5)
      | exact (isApt_emit _).2 trivial
      | exact (isApt_emit _).2 (isApt_neutral _)
      | exact isApt_refuse _
      | exact isApt_error _
      | exact inText_isApt _
      | exact inCdata_isApt _
      | exact inMarkup_isApt _
      | exact inCdataOpen_isApt _ _
      | exact afterTarget_isApt _ _ trivial
      | exact closeElement_isApt _ _
      | exact closeTag_isApt _ _ _
      | exact inTagName_isApt _ _ _
      | exact inTagSpace_isApt _ _
      | exact inAttributeName_isApt _ _ _ _ _
      | exact inValue_isApt _ h _
      | exact inBetween_isApt _
      | exact inDeclMarkup_isApt _
      | exact inWord_isApt _ _ _
      | exact inPercent_isApt _
      | exact inBracket_isApt _

end Apt
end Lexer

/-! ## Lost scans -/

namespace Lexer

/-- The scan is at the opening of a section whose keyword is misspelled. -/
def IsLost (s : Lexer) : Prop := ∃ read, s.mode = .cdataOpen read ∧ ∃ c ∈ read, isForbidden c = true

end Lexer

/-- The step finds a fault, or leads to where one is found. -/
def Step.Loses (step : Step) : Prop := ∀ s, step = .ok s → s.IsLost

namespace Lexer

section Losses

variable (s : Lexer) {c : Char}

@[simp] theorem refuse_loses : Step.Loses (s.refuse c) := by
  intro s' h
  unfold refuse at h
  split at h <;> cases h

theorem error_loses (fault : Fault) : Step.Loses (.error fault) := by
  rintro s' h
  cases h

/-- A keyword that is as long as its pattern, and agrees with it as far as it goes, is the
pattern. -/
theorem eq_of_takeWhile_zip {t t' : Text} (hlength : t.length ≤ t'.length)
    (h : ((t.zip t').takeWhile fun (c, d) => c == d).length = t'.length) : t = t' := by
  induction t generalizing t' with
  | nil => cases t' <;> simp_all
  | cons c t ih =>
      cases t' with
      | nil => simp at hlength
      | cons d t' =>
          by_cases hcd : c = d
          · simp only [List.zip_cons_cons, List.takeWhile_cons, hcd, beq_self_eq_true, if_true,
              List.length_cons, Nat.add_right_cancel_iff] at h
            rw [hcd, ih (by simpa using hlength) h]
          · simp [hcd] at h

theorem inCdataOpen_loses {read : Text} (hlength : read.length ≤ 6)
    (hread : ∃ c ∈ read, isForbidden c = true) : Step.Loses (s.inCdataOpen read) := by
  unfold inCdataOpen
  by_cases hshort : read.length < 6
  · rw [if_pos hshort]
    rintro s' h
    cases h
    exact ⟨read, rfl, hread⟩
  · simp only [if_neg hshort]
    split
    · next hall =>
      have hkeyword : read.reverse = "CDATA[".toList :=
        eq_of_takeWhile_zip (by simpa using hlength) hall
      obtain ⟨c, hmem, hc⟩ := hread
      have hlegal : ∀ d ∈ "CDATA[".toList, isForbidden d = false := by decide
      rw [hlegal c (hkeyword ▸ List.mem_reverse.2 hmem)] at hc
      cases hc
    · exact error_loses _

variable (hc : isForbidden c = true)

include hc

theorem beginsName_of_isForbidden (namespaces : Bool) : beginsName namespaces c = false := by
  have h := notMem_signs hc
  simp only [signs, List.mem_cons, List.not_mem_nil, not_or] at h
  simp [beginsName, isNameStart_of_isForbidden hc, h]

theorem continuesName_of_isForbidden (namespaces : Bool) : continuesName namespaces c = false := by
  have h := notMem_signs hc
  simp only [signs, List.mem_cons, List.not_mem_nil, not_or] at h
  simp [continuesName, isNameMore_of_isForbidden hc, h]

theorem step_reference (namespaces : Bool) (mode : ReferenceMode) :
    mode.step namespaces c = .refused := by
  have h := notMem_signs hc
  simp only [signs, List.mem_cons, List.not_mem_nil, not_or] at h
  cases mode <;>
    simp [ReferenceMode.step, h, beginsName_of_isForbidden hc, continuesName_of_isForbidden hc,
      hexDigit?_of_isForbidden hc, isDigit_of_isForbidden hc]

theorem inText_loses : Step.Loses (s.inText c) := by
  have h := notMem_signs hc
  simp only [signs, List.mem_cons, List.not_mem_nil, not_or] at h
  simp [inText, h, hc]

theorem inCdata_loses : Step.Loses (s.inCdata c) := by
  have h := notMem_signs hc
  simp only [signs, List.mem_cons, List.not_mem_nil, not_or] at h
  simp [inCdata, h, hc]

theorem inMarkup_loses : Step.Loses (s.inMarkup c) := by
  have h := notMem_signs hc
  simp only [signs, List.mem_cons, List.not_mem_nil, not_or] at h
  simp [inMarkup, h, beginsName_of_isForbidden hc]

theorem inBetween_loses : Step.Loses (s.inBetween c) := by
  have h := notMem_signs hc
  simp only [signs, List.mem_cons, List.not_mem_nil, not_or] at h
  simp [inBetween, h, isSpace_of_isForbidden hc, isNameMore_of_isForbidden hc,
    beginsName_of_isForbidden hc]

theorem inWord_loses (kind : WordKind) (word : Text) : Step.Loses (s.inWord kind word c) := by
  have h := notMem_signs hc
  simp only [signs, List.mem_cons, List.not_mem_nil, not_or] at h
  simp [inWord, endsWord, h, isSpace_of_isForbidden hc, continuesName_of_isForbidden hc]

/-- No mode takes a forbidden character. -/
theorem step_loses (hmode : s.mode.IsApt) : Step.Loses (s.step c) := by
  have h := notMem_signs hc
  simp only [signs, List.mem_cons, List.not_mem_nil, not_or] at h
  have hquote {quote : Char} (hquote : isForbidden quote = false) : c ≠ quote :=
    ne_of_isForbidden hc hquote
  cases hs : s.mode <;> rw [hs] at hmode
  case cdataOpen read =>
    simp only [step, hs]
    exact inCdataOpen_loses s hmode ⟨c, List.mem_cons_self, hc⟩
  case cdataBracket two =>
    cases two <;> simp [step, hs, h, inCdata_loses _ hc]
  case value a afterReturn => simp [step, hs, inValue, hquote hmode, h, hc]
  case literal quote body => simp [step, hs, hquote hmode, hc]
  case declMarkup =>
    simp only [step, hs, inDeclMarkup, h, if_false]
    split
    · exact inMarkup_loses _ hc
    · exact refuse_loses _
  all_goals
    simp [step, hs, h, hc, inTagSpace, inTagName, inAttributeName, inPercent, inBracket,
      isKeywordLetter, isSpace_of_isForbidden hc, isNameMore_of_isForbidden hc,
      isNameStart_of_isForbidden hc, isAlpha_of_isForbidden hc, beginsName_of_isForbidden hc,
      continuesName_of_isForbidden hc, step_reference hc, inBetween_loses _ hc, inText_loses _ hc,
      inCdata_loses _ hc, inMarkup_loses _ hc, inWord_loses _ hc]

end Losses

/-- A misspelled keyword stays misspelled. -/
theorem IsLost.step {s : Lexer} (h : s.IsLost) (hmode : s.mode.IsApt) (c : Char) :
    Step.Loses (s.step c) := by
  obtain ⟨read, hs, d, hd, hforbidden⟩ := h
  rw [hs] at hmode
  simp only [Lexer.step, hs]
  exact inCdataOpen_loses s hmode ⟨d, List.mem_cons_of_mem c hd, hforbidden⟩

end Lexer

/-! ## Whole texts -/

/-- The mode of a scan that goes on keeps legal characters. -/
def Scan.IsApt : Scan → Prop
  | running s => s.mode.IsApt
  | failed _ _ => True

theorem Scan.step_isApt {scan : Scan} (h : scan.IsApt) (c : Char) : (scan.step c).IsApt := by
  cases scan with
  | running s =>
      cases hstep : s.step c with
      | ok next =>
          simp only [step, hstep]
          exact Lexer.step_isApt s h c next hstep
      | error fault =>
          simp only [step, hstep]
          trivial
  | failed tokens fault => trivial

/-- The scan has found a fault, or will. -/
def Scan.IsLost : Scan → Prop
  | running s => s.IsLost
  | failed _ _ => True

theorem Scan.isLost_step {s : Lexer} {c : Char} (h : Step.Loses (s.step c)) :
    (Scan.step (.running s) c).IsLost := by
  cases hstep : s.step c with
  | ok next =>
      simp only [Scan.step, hstep]
      exact h next hstep
  | error fault =>
      simp only [Scan.step, hstep]
      trivial

theorem Scan.IsLost.step {scan : Scan} (h : scan.IsLost) (hapt : scan.IsApt) (c : Char) :
    (scan.step c).IsLost := by
  cases scan with
  | running s => exact isLost_step (Lexer.IsLost.step h hapt c)
  | failed tokens fault => trivial

/-- A scan over a text with a forbidden character is lost. -/
theorem Scan.isLost_foldl (scan : Scan) (hapt : scan.IsApt) {t : Text}
    (h : scan.IsLost ∨ ¬IsLegal t) : (t.foldl Scan.step scan).IsLost := by
  induction t generalizing scan with
  | nil => exact h.resolve_right fun h => h fun _ hc => absurd hc List.not_mem_nil
  | cons c t ih =>
      refine ih _ (step_isApt hapt c) ?_
      by_cases hlost : scan.IsLost
      · exact .inl (hlost.step hapt c)
      have hillegal := h.resolve_left hlost
      by_cases hc : isForbidden c = true
      · left
        cases scan with
        | running s => exact isLost_step (Lexer.step_loses s hc hapt)
        | failed tokens fault => trivial
      · refine .inr fun hlegal => hillegal fun d hd => ?_
        rcases List.mem_cons.1 hd with rfl | hd
        · simpa using hc
        · exact hlegal d hd

/-- A text that is scanned without a fault holds no forbidden character. -/
theorem Tokens.isLegal_of_ofDocument {namespaces : Bool} {t : Text}
    (h : (Tokens.ofDocument namespaces t).fault = none) : IsLegal t := by
  by_contra hillegal
  have hlost := Scan.isLost_foldl (.running ⟨namespaces, .prolog, .start, 0, 0, 0, []⟩) trivial
    (.inr hillegal)
  unfold ofDocument at h
  split at h
  · next s hs =>
    rw [hs] at hlost
    obtain ⟨read, hmode, -⟩ := hlost
    simp [Lexer.finish, hmode] at h
  · cases h

/-- A text that is read as a tree holds no forbidden character. -/
theorem Node.isLegal_of_ofDocument {t : Text} {root : Node} (h : Node.ofDocument t = .ok root) :
    IsLegal t := by
  unfold ofDocument at h
  simp only at h
  split at h
  · cases h
  · next hfault =>
    have htokens : (Tokens.ofDocument true (withoutMarks t)).fault = none := by
      have hevents := (Option.or_eq_none_iff.1 hfault).2
      exact (Option.or_eq_none_iff.1 hevents).2
    intro c hc
    have hlegal := Tokens.isLegal_of_ofDocument htokens _ (List.mem_map_of_mem hc)
    split at hlegal
    · exact absurd hlegal (by decide)
    · exact hlegal

/-! ## Written trees -/

theorem escape_of_isForbidden {c : Char} (hc : isForbidden c = true) :
    escapeInText c = [c] ∧ escapeInValue c = [c] := by
  have hne {d : Char} (hd : isForbidden d = false) : c ≠ d := ne_of_isForbidden hc hd
  have htext : escapeInText c = [c] := by
    rw [escapeInText, if_neg (hne (by decide)), if_neg (hne (by decide)), if_neg (hne (by decide))]
  refine ⟨htext, ?_⟩
  rw [escapeInValue, if_neg (hne (by decide)), if_neg (hne (by decide)), if_neg (hne (by decide)),
    if_neg (hne (by decide)), htext]

theorem isLegal_of_escape {t : Text} {escape : Char → Text}
    (hescape : ∀ c, isForbidden c = true → escape c = [c]) (h : IsLegal (t.flatMap escape)) :
    IsLegal t := by
  intro c hc
  by_contra hforbidden
  have hforbidden : isForbidden c = true := by simpa using hforbidden
  have hmem : c ∈ t.flatMap escape :=
    List.mem_flatMap.2 ⟨c, hc, hescape c hforbidden ▸ List.mem_singleton_self c⟩
  rw [h c hmem] at hforbidden
  cases hforbidden

theorem isLegal_of_isLegal_append {t t' : Text} (h : IsLegal (t ++ t')) : IsLegal t ∧ IsLegal t' :=
  ⟨fun c hc => h c (List.mem_append_left t' hc), fun c hc => h c (List.mem_append_right t hc)⟩

theorem isLegal_of_writeAttributes {written : List (Text × Text)}
    (h : IsLegal (writeAttributes written)) : ∀ entry ∈ written, IsLegal entry.2 := by
  intro entry hentry
  refine isLegal_of_escape (fun c hc => (escape_of_isForbidden hc).2) fun c hc => h c ?_
  refine List.mem_flatMap.2 ⟨entry, hentry, ?_⟩
  simp [writeAttribute, hc]

namespace Node

theorem isLegal_of_mem_writeAll {d : Declarations} {nodes : List Node}
    (h : IsLegal (writeAll d nodes)) : ∀ node ∈ nodes, IsLegal (node.write d []) := by
  induction nodes with
  | nil => exact fun _ hmem => absurd hmem List.not_mem_nil
  | cons node nodes ih =>
      have hparts := isLegal_of_isLegal_append h
      intro other hother
      rcases List.mem_cons.1 hother with rfl | hother
      · exact hparts.1
      · exact ih hparts.2 other hother

/-- All parts of an element are part of what is written. -/
theorem mem_write_element (d : Declarations) (declared : List (Text × Text)) (name : Name)
    (attributes : List (Name × Text)) (lead : Text) (children : List Node) (tail : Text) :
    ∀ c ∈ writeAttributes (declared ++ d.writeNames attributes) ++ lead.flatMap escapeInText ++
        writeAll d children ++ tail.flatMap escapeInText,
      c ∈ write d (writeAttributes declared) (element name attributes lead children tail) := by
  intro c hc
  rw [write_element]
  split
  · next hempty =>
    simp only [Bool.and_eq_true, List.isEmpty_iff] at hempty
    obtain ⟨rfl, rfl⟩ := hempty
    simp only [List.flatMap_nil, writeAll, List.append_nil, List.mem_append] at hc
    simp only [List.cons_append, List.mem_append, List.mem_cons]
    tauto
  · simp only [List.mem_append] at hc
    simp only [List.cons_append, List.mem_append, List.mem_cons]
    tauto

/-- A tree that is written as a legal text has legal texts: what is forbidden is written as it is. -/
theorem IsFormed.isSound_of_write {P : Text → Prop} {d : Declarations} {node : Node}
    (h : node.IsFormed P) {declared : List (Text × Text)}
    (hlegal : IsLegal (node.write d (writeAttributes declared))) : node.IsSound := by
  induction h generalizing declared with
  | @element name attributes lead tail children hname hspelled hattributes hnodup _ _ _ ih =>
      have hparts : IsLegal (writeAttributes (declared ++ d.writeNames attributes) ++
          lead.flatMap escapeInText ++ writeAll d children ++ tail.flatMap escapeInText) :=
        fun c hc => hlegal c (mem_write_element d declared name attributes lead children tail c hc)
      obtain ⟨hparts, htail⟩ := isLegal_of_isLegal_append hparts
      obtain ⟨hparts, hinside⟩ := isLegal_of_isLegal_append hparts
      obtain ⟨hvalues, hlead⟩ := isLegal_of_isLegal_append hparts
      have hescape (c : Char) (hc : isForbidden c = true) := (escape_of_isForbidden hc).1
      refine .element hname hspelled (fun entry hentry => ?_) hnodup
        (isLegal_of_escape hescape hlead) (fun child hchild => ?_) (isLegal_of_escape hescape htail)
      · obtain ⟨hsound, hne, -⟩ := hattributes entry hentry
        refine ⟨hsound, hne, isLegal_of_writeAttributes hvalues (d.write entry.1, entry.2) ?_⟩
        exact List.mem_append_right _ (List.mem_map_of_mem hentry)
      · have hchildLegal : IsLegal (child.write d (writeAttributes [])) :=
          isLegal_of_mem_writeAll hinside child hchild
        exact ih child hchild hchildLegal
  | @comment body tail hbody hbodyLegal hreturn _ =>
      refine .comment hbody hbodyLegal hreturn (isLegal_of_escape
        (fun c hc => (escape_of_isForbidden hc).1) (isLegal_of_isLegal_append hlegal).2)

end Node

end BundleHook.Markup
