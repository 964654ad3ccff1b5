import BundleHook.Proofs.Markup.SoundTokens
import BundleHook.Proofs.Entries

/-!
# Declarations of a document

What a document with namespaces can declare: attributes have names and legal values. The values of
written attributes are legal, too, whatever entities they refer to.
-/

namespace BundleHook.Markup

/-! ## Values -/

theorem isLegal_cons {c : Char} {t : Text} (hc : isForbidden c = false) (h : IsLegal t) :
    IsLegal (c :: t) := by
  intro d hd
  rcases List.mem_cons.1 hd with rfl | hd
  · exact hc
  · exact h d hd

theorem isLegal_referredChar? {code : Nat} {c : Char} (h : referredChar? code = some c) :
    isForbidden c = false := by
  unfold referredChar? at h
  split at h
  · simp only at h
    split at h
    · cases h
    · next hlegal =>
      obtain rfl := Option.some.inj h
      simpa using hlegal
  · cases h

theorem isLegal_predefinedEntity? {name : Text} {c : Char} (h : predefinedEntity? name = some c) :
    isForbidden c = false := by
  unfold predefinedEntity? at h
  split_ifs at h <;> (obtain rfl := Option.some.inj h; decide)

theorem isLegal_addSpace {isText : Bool} {value : Text} (h : IsLegal value) :
    IsLegal (addSpace isText value) := by
  unfold addSpace
  split
  · exact h
  · exact isLegal_cons (by decide) h

section Values

variable {d : Definitions} {isText : Bool}

theorem isLegal_addPiece {enter : (name text value : Text) → Except ValueFault Text}
    (henter : ∀ name text value value', IsLegal value → enter name text value = .ok value' →
      IsLegal value') {here : Option Nat} {value value' : Text} (h : IsLegal value) {piece : Piece}
    (hpiece : piece.IsSound) (hadd : addPiece d isText enter here value piece = .ok value') :
    IsLegal value' := by
  cases piece with
  | plain c =>
      obtain rfl := Except.ok.inj hadd
      exact isLegal_cons hpiece h
  | space =>
      obtain rfl := Except.ok.inj hadd
      exact isLegal_addSpace h
  | reference reference =>
      cases reference with
      | character code =>
          simp only [addPiece] at hadd
          split at hadd
          · next c hc =>
            obtain rfl := Except.ok.inj hadd
            split
            · exact isLegal_addSpace h
            · exact isLegal_cons (isLegal_referredChar? hc) h
          · cases hadd
      | entity name =>
          simp only [addPiece] at hadd
          split at hadd
          · next c hc =>
            obtain rfl := Except.ok.inj hadd
            exact isLegal_cons (isLegal_predefinedEntity? hc) h
          · split at hadd
            · exact henter _ _ _ _ h hadd
            · cases hadd
            · cases hadd
            · split at hadd
              · cases hadd
              · obtain rfl := Except.ok.inj hadd
                exact h

/-- The parts of a value that is given as text are sound. -/
theorem piecesFrom_isSound {ns : Bool} {index : Nat} {mode : ValueMode}
    {pieces pieces' : List (Nat × Piece)} {t : Text} (h : ∀ entry ∈ pieces, entry.2.IsSound)
    (hread : piecesFrom ns index mode pieces t = .ok pieces') :
    ∀ entry ∈ pieces', entry.2.IsSound := by
  have hcons (entry : Nat × Piece) {pieces : List (Nat × Piece)} (hentry : entry.2.IsSound)
      (h : ∀ entry ∈ pieces, entry.2.IsSound) : ∀ other ∈ entry :: pieces, other.2.IsSound := by
    intro other hother
    rcases List.mem_cons.1 hother with rfl | hother
    · exact hentry
    · exact h other hother
  induction t generalizing index mode pieces with
  | nil =>
      cases mode <;> simp only [piecesFrom] at hread
      case reference => cases hread
      all_goals
        obtain rfl := Except.ok.inj hread
        exact fun entry hentry => h entry (List.mem_reverse.1 hentry)
  | cons c rest ih =>
      cases mode with
      | reference start reading =>
          rw [piecesFrom] at hread
          split at hread
          · exact ih h hread
          · exact ih (hcons (start, .reference _) trivial h) hread
          · cases hread
      | plain | afterReturn =>
          rw [piecesFrom] at hread
          · split_ifs at hread with hamp hforbidden hfeed hspace
            · exact ih h hread
            · exact ih h hread
            · exact ih (hcons (index, .space) trivial h) hread
            · exact ih (hcons (index, .space) trivial h) hread
            · refine ih (hcons (index, .plain c) ?_ h) hread
              simp only [Bool.or_eq_true, not_or, Bool.not_eq_true] at hforbidden
              exact hforbidden.2
          · exact fun _ _ => ValueMode.noConfusion

theorem isLegal_addPieces {budget : Nat} {opened : List Text} {value value' : Text}
    {pieces : List (Nat × Piece)} (h : IsLegal value) (hpieces : ∀ entry ∈ pieces, entry.2.IsSound)
    (hadd : addPieces d isText budget opened value pieces = .ok value') : IsLegal value' := by
  induction budget generalizing opened value value' pieces with
  | zero =>
      rw [addPieces] at hadd
      refine foldlM_keeps (fun value value' entry h hentry hadd => ?_) hpieces h hadd
      refine isLegal_addPiece (fun _ _ _ _ _ henter => ?_) h hentry hadd
      cases henter
  | succ budget ih =>
      rw [addPieces] at hadd
      refine foldlM_keeps (fun value value' entry h hentry hadd => ?_) hpieces h hadd
      refine isLegal_addPiece (fun name text value value' h henter => ?_) h hentry hadd
      split at henter
      · cases henter
      · split at henter
        · next inner hinner =>
          exact ih h (piecesFrom_isSound (fun _ hmem => absurd hmem List.not_mem_nil) hinner) henter
        · cases henter

theorem isLegal_valueOf {pieces : List (Nat × Piece)} {value : Text}
    (hpieces : ∀ entry ∈ pieces, entry.2.IsSound) (h : valueOf d isText pieces = .ok value) :
    IsLegal value := by
  unfold valueOf at h
  cases hadd : addPieces d isText d.entities.length [] [] pieces with
  | error fault =>
      rw [hadd] at h
      cases h
  | ok read =>
      rw [hadd] at h
      have hread := isLegal_addPieces (fun _ hmem => absurd hmem List.not_mem_nil) hpieces hadd
      obtain rfl := Except.ok.inj h
      intro c hc
      rw [List.mem_reverse] at hc
      split at hc
      · exact hread c (List.mem_of_mem_drop hc)
      · exact hread c hc

end Values

/-! ## Definitions -/

def DeclaredAttribute.IsSound (declared : DeclaredAttribute) : Prop :=
  IsDeclaredName declared.name ∧ ∀ value, declared.default = some value → IsLegal value

/-- What has been declared in a document with namespaces. -/
def Definitions.IsSound (d : Definitions) : Prop :=
  d.namespaces = true ∧ ∀ entry ∈ d.attributes, ∀ declared ∈ entry.2, declared.IsSound

def Stage.IsSound : Stage → Prop
  | attributeType _ name => IsDeclaredName name
  | choiceOpen draft | choiceNext draft | noteChoiceOpen draft | noteChoice draft
  | noteChoiceNext draft | attributeDefault draft | attributeFixed draft =>
    IsDeclaredName draft.name
  | _ => True

def Prolog.IsSound (p : Prolog) : Prop := p.definitions.IsSound ∧ p.stage.IsSound

theorem WordKind.Fits.isDeclaredName {kind : WordKind} {word : Text} (h : kind.Fits word)
    (hkind : kind ≠ .token) : IsDeclaredName word := by
  cases kind with
  | name => exact .plain h
  | prefixed =>
      obtain ⟨short, part, hshort, hne, hpart, rfl⟩ := h
      exact .prefixed hshort hne hpart
  | token => exact absurd rfl hkind

theorem Token.IsSound.isDeclaredName {kind : WordKind} {word : Text}
    (h : (Token.word kind word).IsSound) (hkind : kind ≠ .token) : IsDeclaredName word :=
  WordKind.Fits.isDeclaredName h hkind

theorem Definitions.IsSound.attributesOf {d : Definitions} (h : d.IsSound) (element : Text) :
    ∀ declared ∈ d.attributesOf element, declared.IsSound := by
  intro declared hdeclared
  unfold Definitions.attributesOf at hdeclared
  cases hlookup : d.attributes.lookup element with
  | none =>
      rw [hlookup] at hdeclared
      exact absurd hdeclared List.not_mem_nil
  | some known =>
      rw [hlookup] at hdeclared
      exact h.2 _ (mem_of_lookup hlookup) declared hdeclared

theorem Definitions.IsSound.declareAttribute {d : Definitions} (h : d.IsSound) (element : Text)
    {declared : DeclaredAttribute} (hdeclared : declared.IsSound) (isIdentifier : Bool) :
    (d.declareAttribute element declared isIdentifier).IsSound := by
  unfold Definitions.declareAttribute
  simp only
  split
  · exact h
  · refine ⟨h.1, fun entry hentry other hother => ?_⟩
    rcases List.mem_cons.1 hentry with rfl | hentry
    · rcases List.mem_append.1 hother with hother | hother
      · exact h.attributesOf element other hother
      · exact List.mem_singleton.1 hother ▸ hdeclared
    · exact h.2 entry (List.mem_filter.1 hentry).1 other hother

theorem Definitions.isSound_declareEntity {d : Definitions} (h : d.IsSound) (name : Text)
    (entity : Entity) : (d.declareEntity name entity).IsSound := by
  unfold declareEntity
  split <;> exact h

/-! ## Steps of the declarations -/

namespace Prolog

variable {p : Prolog} {stage : Stage} {offset : Nat}

theorem enter_isSound (h : p.definitions.IsSound) (hstage : stage.IsSound) :
    (p.enter stage).1.IsSound := ⟨h, hstage⟩

theorem refuse_isSound (h : p.IsSound) (token : Token) : (p.refuse offset token).1.IsSound := by
  unfold refuse
  split <;> exact h

theorem noteEntity_isSound (h : p.IsSound) (draft : EntityDraft) (offset : Nat) :
    (p.noteEntity draft offset).IsSound := by
  unfold noteEntity
  split <;> exact h

theorem keepEntity_isSound (h : p.IsSound) (draft : EntityDraft) (entity : Entity) :
    (p.keepEntity draft entity).IsSound := by
  unfold keepEntity
  split
  · exact ⟨Definitions.isSound_declareEntity h.1 _ _, h.2⟩
  · exact h

theorem publicId_isSound (h : p.IsSound) (body : Text) (hstage : stage.IsSound) :
    (p.publicId offset body stage).1.IsSound := by
  unfold publicId
  simp only
  split
  · exact h
  · exact enter_isSound h.1 hstage

theorem locator_isSound (h : p.IsSound) (word : Text) {publicStage systemStage : Stage}
    (hpublic : publicStage.IsSound) (hsystem : systemStage.IsSound) :
    (p.locator word publicStage systemStage offset).1.IsSound := by
  unfold locator
  split_ifs
  · exact enter_isSound h.1 hsystem
  · exact enter_isSound h.1 hpublic
  · exact h

theorem entityValue_isSound (h : p.IsSound) (draft : EntityDraft) (body : Text) :
    (p.entityValue draft offset body).1.IsSound := by
  have hnoted := noteEntity_isSound h draft offset
  unfold entityValue
  split
  · exact enter_isSound h.1 trivial
  · simp only
    split
    · exact enter_isSound (keepEntity_isSound hnoted draft _).1 trivial
    · exact hnoted

theorem attributeWithout_isSound (h : p.IsSound) {draft : AttributeDraft}
    (hname : IsDeclaredName draft.name) : (p.attributeWithout draft).1.IsSound := by
  unfold attributeWithout
  refine enter_isSound ?_ trivial
  simp only
  split
  · exact h.1
  · refine h.1.declareAttribute _ ⟨hname, fun _ hnone => ?_⟩ _
    cases hnone

theorem attributeWith_isSound (h : p.IsSound) {draft : AttributeDraft}
    (hname : IsDeclaredName draft.name) (body : Text) :
    (p.attributeWith draft offset body).1.IsSound := by
  unfold attributeWith
  simp only
  split
  · exact enter_isSound h.1 trivial
  · split
    · exact h
    · next pieces hpieces =>
      split
      · exact h
      · next value hvalue =>
        refine enter_isSound (h.1.declareAttribute _ ⟨hname, fun value' hsome => ?_⟩ _) trivial
        obtain rfl := Option.some.inj hsome
        exact isLegal_valueOf
          (piecesFrom_isSound (fun _ hmem => absurd hmem List.not_mem_nil) hpieces) hvalue

theorem sign_isSound (h : p.IsSound) (c : Char) (signs : List (Option Char)) :
    (p.sign c signs offset).1.IsSound := by
  unfold sign
  split
  · exact enter_isSound h.1 trivial
  · split
    · exact enter_isSound h.1 trivial
    · exact h
  · exact h

theorem declare_isSound (h : p.IsSound) (body : Text) : (p.declare offset body).1.IsSound := by
  unfold declare
  split
  · exact h
  · exact ⟨h.1, trivial⟩

theorem outside_isSound (stage : Stage) (h : p.IsSound) (hstage : stage.IsSound) (allowsDoctype : Bool)
    (token : Token) : (p.outside stage allowsDoctype offset token).1.IsSound := by
  unfold outside
  split
  all_goals try exact enter_isSound h.1 hstage
  · split
    · exact enter_isSound h.1 trivial
    · exact h
  · exact refuse_isSound h token

theorem inSubset_isSound (h : p.IsSound) (token : Token) :
    (p.inSubset offset token).1.IsSound := by
  unfold inSubset
  split
  all_goals try exact enter_isSound h.1 trivial
  · split_ifs
    all_goals try exact enter_isSound h.1 trivial
    exact h
  · exact refuse_isSound h token

/-- A token of the document type. Only the stages inside a declaration of attributes have read a
name that counts. -/
theorem inDoctype_isSound (h : p.IsSound) {token : Token} (htoken : token.IsSound) :
    (p.inDoctype offset token).1.IsSound := by
  have hstage := h.2
  have hopened : p.opened.IsSound := h
  unfold inDoctype
  split
  all_goals try rw [‹p.stage = _›] at hstage
  all_goals first
    | exact enter_isSound h.1 trivial
    | exact enter_isSound h.1 hstage
    | exact enter_isSound h.1 (Token.IsSound.isDeclaredName htoken (by decide))
    | exact locator_isSound h _ trivial trivial
    | exact publicId_isSound h _ trivial
    | exact entityValue_isSound h _ _
    | exact attributeWith_isSound h hstage _
    | exact sign_isSound h _ _
    | exact enter_isSound (keepEntity_isSound (noteEntity_isSound h _ _) _ _).1 trivial
    | exact refuse_isSound h _
    | skip
  -- what is left asks for a keyword
  all_goals split
  all_goals first
    | exact enter_isSound h.1 trivial
    | exact enter_isSound h.1 hstage
    | exact h
    | skip
  all_goals try split
  all_goals first
    | exact enter_isSound h.1 trivial
    | exact enter_isSound h.1 hstage
    | exact attributeWithout_isSound h hstage
    | exact publicId_isSound hopened _ trivial
    | exact h

theorem step_isSound (h : p.IsSound) {token : Token} (htoken : token.IsSound) :
    (p.step offset token).1.IsSound := by
  have hstage := h.2
  unfold step
  split
  · exact enter_isSound h.1 trivial
  · exact h
  · exact declare_isSound h _
  · exact outside_isSound .misc h trivial true _
  · exact outside_isSound .misc h trivial true _
  · exact outside_isSound .afterDoctype h trivial false _
  · exact inSubset_isSound h _
  · exact inDoctype_isSound h htoken

theorem initial_isSound (isStrict : Bool) : (Prolog.initial true isStrict).IsSound :=
  ⟨⟨rfl, fun _ h => absurd h List.not_mem_nil⟩, trivial⟩

end Prolog

end BundleHook.Markup
