import BundleHook.Markup.Lexer
import BundleHook.Markup.Rendering
import Mathlib.Data.List.Forall2

/-!
# Scanning what is written

How the scanner goes over the pieces that a document is written in: names, attributes with their
values, tags, characters and comments. Each lemma says which mode the scanner is in behind a piece
and which token it has added; the places in the document are left open.
-/

namespace BundleHook.Markup

/-! ## Names -/

/-- Is the text a name without a prefix? -/
def isPlainName : Text → Bool
  | [] => false
  | c :: rest => isNameStart c && rest.all isNameMore

/-- A name as a tag may spell it, with a prefix or without one. -/
inductive IsTagName : Text → Prop where
  | plain {word : Text} (h : isPlainName word = true) : IsTagName word
  | prefixed {short part : Text} (hshort : isPlainName short = true)
      (hpart : isPlainName part = true) : IsTagName (short ++ ':' :: part)

theorem isNameMore_of_isPlainName {word : Text} (h : isPlainName word = true) {c : Char}
    (hc : c ∈ word) : isNameMore c = true := by
  cases word with
  | nil => cases hc
  | cons first rest =>
      simp only [isPlainName, Bool.and_eq_true, List.all_eq_true] at h
      rcases List.mem_cons.1 hc with rfl | hc
      · exact isNameMore_of_isNameStart c h.1
      · exact h.2 c hc

theorem IsTagName.cons {word : Text} (h : IsTagName word) :
    ∃ first rest, word = first :: rest ∧ isNameStart first = true := by
  cases h with
  | plain hword =>
      cases word with
      | nil => cases hword
      | cons first rest =>
          simp only [isPlainName, Bool.and_eq_true] at hword
          exact ⟨first, rest, rfl, hword.1⟩
  | @prefixed short part hshort _ =>
      cases short with
      | nil => cases hshort
      | cons first rest =>
          simp only [isPlainName, Bool.and_eq_true] at hshort
          exact ⟨first, rest ++ ':' :: part, rfl, hshort.1⟩

theorem IsTagName.isNameMore_or_colon {word : Text} (h : IsTagName word) :
    ∀ c ∈ word, isNameMore c = true ∨ c = ':' := by
  intro c hc
  cases h with
  | plain hword => exact .inl (isNameMore_of_isPlainName hword hc)
  | prefixed hshort hpart =>
      rcases List.mem_append.1 hc with hc | hc
      · exact .inl (isNameMore_of_isPlainName hshort hc)
      · exact (List.mem_cons.1 hc).symm.imp_left (isNameMore_of_isPlainName hpart)

/-! ## Scans -/

namespace Lexer

/-- The scan of the text from `s` on arrives at `s'`. -/
def Scans (s : Lexer) (t : Text) (s' : Lexer) : Prop :=
  t.foldl Scan.step (.running s) = .running s'

/-- The scan of the text finds a fault. -/
def Fails (s : Lexer) (t : Text) : Prop :=
  ∃ tokens fault, t.foldl Scan.step (.running s) = .failed tokens fault

variable {s s' s'' : Lexer} {t t' : Text} {c : Char} {mode mode' : Mode}

theorem Scans.nil (s : Lexer) : s.Scans [] s := rfl

theorem Scans.append (h : s.Scans t s') (h' : s'.Scans t' s'') : s.Scans (t ++ t') s'' := by
  unfold Scans at h h' ⊢
  rw [List.foldl_append, h, h']

theorem scans_singleton (h : s.step c = .ok s') : s.Scans [c] s' := by
  simp only [Scans, List.foldl_cons, List.foldl_nil, Scan.step, h]

theorem Scans.fails (h : s.Scans t s') (h' : s'.Fails t') : s.Fails (t ++ t') := by
  obtain ⟨tokens, fault, h'⟩ := h'
  unfold Scans at h
  exact ⟨tokens, fault, by rw [List.foldl_append, h, h']⟩

/-- A fault stays. -/
theorem foldl_failed (tokens : List (Nat × Token)) (fault : Fault) (t : Text) :
    t.foldl Scan.step (.failed tokens fault) = .failed tokens fault := by
  induction t with
  | nil => rfl
  | cons c t ih => exact ih

theorem Fails.append (h : s.Fails t) (more : Text) : s.Fails (t ++ more) := by
  obtain ⟨tokens, fault, h⟩ := h
  exact ⟨tokens, fault, by rw [List.foldl_append, h, foldl_failed]⟩

theorem fails_of_refuse (h : s.step c = s.refuse c) : s.Fails [c] := by
  have hfault : ∃ fault, s.step c = .error fault := by
    rw [h]
    unfold refuse
    split <;> exact ⟨_, rfl⟩
  obtain ⟨fault, hfault⟩ := hfault
  exact ⟨s.tokens, fault, by simp only [List.foldl_cons, List.foldl_nil, Scan.step, hfault]⟩

/-- The scanner in another mode and at another place. -/
def placed (s : Lexer) (mode : Mode) (first index : Nat) : Lexer := { s with mode, first, index }

@[simp] theorem placed_mode (first index : Nat) : (s.placed mode first index).mode = mode := rfl

@[simp] theorem placed_namespaces (first index : Nat) :
    (s.placed mode first index).namespaces = s.namespaces := rfl

@[simp] theorem placed_zone (first index : Nat) :
    (s.placed mode first index).zone = s.zone := rfl

@[simp] theorem placed_depth (first index : Nat) :
    (s.placed mode first index).depth = s.depth := rfl

@[simp] theorem placed_tokens (first index : Nat) :
    (s.placed mode first index).tokens = s.tokens := rfl

@[simp] theorem placed_placed (first index first' index' : Nat) :
    (s.placed mode first index).placed mode' first' index' = s.placed mode' first' index' := rfl

/-- The scan of the text only leads to another mode. -/
def Goes (s : Lexer) (t : Text) (mode : Mode) : Prop :=
  ∃ first index, s.Scans t (s.placed mode first index)

theorem goes_nil (h : s.mode = mode) : s.Goes [] mode := ⟨s.first, s.index, by subst h; rfl⟩

theorem Goes.append (h : s.Goes t mode)
    (h' : ∀ first index, (s.placed mode first index).Goes t' mode') : s.Goes (t ++ t') mode' := by
  obtain ⟨first, index, h⟩ := h
  obtain ⟨first', index', h'⟩ := h' first index
  exact ⟨first', index', h.append h'⟩

/-- Where a piece leads to may depend on the places before it. -/
theorem Goes.append_exists {α : Type} {P : α → Prop} {next : α → Mode} (h : s.Goes t mode)
    (h' : ∀ first index, ∃ x, P x ∧ (s.placed mode first index).Goes t' (next x)) :
    ∃ x, P x ∧ s.Goes (t ++ t') (next x) := by
  obtain ⟨first, index, h⟩ := h
  obtain ⟨x, hx, first', index', h'⟩ := h' first index
  exact ⟨x, hx, first', index', h.append h'⟩

theorem goes_of_go {m : Mode} (h : s.step c = s.go m) : s.Goes [c] m :=
  ⟨_, _, scans_singleton h⟩

theorem Goes.cons {m : Mode} (h : s.step c = s.go m)
    (h' : ∀ first index, (s.placed m first index).Goes t mode) : s.Goes (c :: t) mode :=
  (goes_of_go h).append h'

/-- A run of characters that a mode collects, latest character first. -/
theorem goes_many (collect : Text → Mode) {ns : Bool} {word : Text}
    (hstep : ∀ (s : Lexer) (read : Text) (c : Char), c ∈ word → s.namespaces = ns →
      s.mode = collect read → s.step c = s.go (collect (c :: read)))
    (hns : s.namespaces = ns) (read : Text) (hs : s.mode = collect read) :
    s.Goes word (collect (word.reverse ++ read)) := by
  induction word generalizing s read with
  | nil => exact goes_nil hs
  | cons c word ih =>
      rw [List.reverse_cons, List.append_assoc, List.singleton_append]
      refine Goes.cons (hstep s read c List.mem_cons_self hns hs) fun first index => ?_
      have hplaced : (s.placed (collect (c :: read)) first index).namespaces = ns := hns
      exact ih (fun s read d hd => hstep s read d (List.mem_cons_of_mem c hd)) hplaced _ rfl

/-! ## Names of tags and attributes -/

/-- A mode that collects a name, which may have one colon. -/
structure CollectsName (collect : Text → Colon → Mode) : Prop where
  more : ∀ (s : Lexer) (read : Text) (colon : Colon) (c : Char), s.mode = collect read colon →
    colon ≠ .fresh → isNameMore c = true → s.step c = s.go (collect (c :: read) colon)
  mark : ∀ (s : Lexer) (read : Text), s.mode = collect read .none →
    s.step ':' = s.go (collect (':' :: read) (if s.namespaces then .fresh else .none))
  start : ∀ (s : Lexer) (read : Text) (c : Char), s.mode = collect read .fresh →
    isNameStart c = true → s.step c = s.go (collect (c :: read) .past)

theorem collectsName_tagName : CollectsName .tagName where
  more s read colon c hs hcolon hc := by
    unfold step
    simp only [hs, inTagName, if_neg hcolon, continuesName, hc, Bool.true_or, if_true]
  mark s read hs := by
    have hmore : isNameMore ':' = false := by decide
    unfold step
    cases hns : s.namespaces <;> simp [hs, inTagName, continuesName, hmore, hns]
  start s read c hs hc := by
    unfold step
    simp only [hs, inTagName, hc, if_true]

theorem collectsName_attributeName (tag : OpenTag) (index : Nat) :
    CollectsName (.attributeName tag index) where
  more s read colon c hs hcolon hc := by
    unfold step
    simp only [hs, inAttributeName, if_neg hcolon, continuesName, hc, Bool.true_or, if_true]
  mark s read hs := by
    have hmore : isNameMore ':' = false := by decide
    unfold step
    cases hns : s.namespaces <;> simp [hs, inAttributeName, continuesName, hmore, hns]
  start s read c hs hc := by
    unfold step
    simp only [hs, inAttributeName, hc, if_true]

section Names

variable {collect : Text → Colon → Mode} (h : CollectsName collect)

include h

theorem CollectsName.goes_more {word : Text} (hword : ∀ c ∈ word, isNameMore c = true)
    {read : Text} {colon : Colon} (hcolon : colon ≠ .fresh) (hs : s.mode = collect read colon) :
    s.Goes word (collect (word.reverse ++ read) colon) :=
  goes_many (collect · colon)
    (fun s read c hc _ hs => h.more s read colon c hs hcolon (hword c hc)) rfl read hs

/-- Behind its first character a name is collected to its end. -/
theorem CollectsName.goes_name {first : Char} {rest : Text} (hname : IsTagName (first :: rest))
    (hs : s.mode = collect [first] .none) :
    ∃ colon, colon ≠ .fresh ∧ s.Goes rest (collect (first :: rest).reverse colon) := by
  generalize hword : first :: rest = word at hname
  cases hname with
  | plain hplain =>
      subst hword
      refine ⟨.none, by decide, ?_⟩
      rw [List.reverse_cons]
      exact h.goes_more
        (fun c hc => isNameMore_of_isPlainName hplain (List.mem_cons_of_mem _ hc)) (by decide) hs
  | @prefixed short part hshort hpart =>
      obtain ⟨_, more, rfl⟩ : ∃ c more, short = c :: more := List.exists_cons_of_ne_nil (by
        rintro rfl
        cases hshort)
      obtain ⟨rfl, rfl⟩ := List.cons.inj hword
      obtain ⟨next, others, rfl⟩ : ∃ c more, part = c :: more := List.exists_cons_of_ne_nil (by
        rintro rfl
        cases hpart)
      have hmore (c : Char) (hc : c ∈ more) : isNameMore c = true :=
        isNameMore_of_isPlainName hshort (List.mem_cons_of_mem _ hc)
      have hothers (c : Char) (hc : c ∈ others) : isNameMore c = true :=
        isNameMore_of_isPlainName hpart (List.mem_cons_of_mem _ hc)
      have hnext : isNameStart next = true := by
        simp only [isPlainName, Bool.and_eq_true] at hpart
        exact hpart.1
      have hbefore := h.goes_more hmore (by decide) hs
      have hread : (first :: (more ++ ':' :: next :: others)).reverse =
          others.reverse ++ next :: ':' :: (more.reverse ++ [first]) := by simp
      rw [List.cons_append, hread]
      cases hns : s.namespaces with
      | true =>
          refine ⟨.past, by decide, hbefore.append fun _ _ => ?_⟩
          refine Goes.cons (by rw [h.mark _ _ rfl, placed_namespaces, hns]) fun _ _ => ?_
          refine Goes.cons (h.start _ _ _ rfl hnext) fun _ _ => ?_
          exact h.goes_more hothers (by decide) rfl
      | false =>
          refine ⟨.none, by decide, hbefore.append fun _ _ => ?_⟩
          refine Goes.cons (by rw [h.mark _ _ rfl, placed_namespaces, hns]) fun _ _ => ?_
          refine Goes.cons (h.more _ _ _ _ rfl (by decide)
            (isNameMore_of_isNameStart _ hnext)) fun _ _ => ?_
          exact h.goes_more hothers (by decide) rfl

end Names

/-! ## References -/

end Lexer

/-- The mode of a reference behind more of its characters, as long as it goes on. -/
def ReferenceMode.after (ns : Bool) : ReferenceMode → Text → Option ReferenceMode
  | mode, [] => some mode
  | mode, c :: rest =>
    match mode.step ns c with
    | .more mode => after ns mode rest
    | _ => none

/-- Between an ampersand and a semicolon the word is the reference. -/
def Reference.IsSpelled (reference : Reference) (word : Text) : Prop :=
  ∀ ns, (ReferenceMode.after ns .opened word).map (·.step ns ';') = some (.done reference)

instance (reference : Reference) (word : Text) : Decidable (reference.IsSpelled word) :=
  inferInstanceAs (Decidable (∀ _, _))

/-- The character that a piece of a value stands for by itself. -/
def Piece.char? : Piece → Option Char
  | .plain c => some c
  | .space => some ' '
  | .reference (.character code) => referredChar? code
  | .reference (.entity name) => predefinedEntity? name

/-- Written in a text, a character is itself or a reference to it by name. -/
theorem escapeInText_cases (c : Char) :
    (escapeInText c = [c] ∧ c ≠ '&' ∧ c ≠ '<' ∧ c ≠ '>') ∨
      ∃ name, escapeInText c = '&' :: (name ++ [';']) ∧
        (Reference.entity name).IsSpelled name ∧ predefinedEntity? name = some c := by
  by_cases hamp : c = '&'
  · subst hamp
    exact .inr ⟨"amp".toList, rfl, by decide, rfl⟩
  by_cases hlt : c = '<'
  · subst hlt
    exact .inr ⟨"lt".toList, rfl, by decide, rfl⟩
  by_cases hgt : c = '>'
  · subst hgt
    exact .inr ⟨"gt".toList, rfl, by decide, rfl⟩
  · refine .inl ⟨?_, hamp, hlt, hgt⟩
    unfold escapeInText
    rw [if_neg hamp, if_neg hlt, if_neg hgt]

/-- Written in a value, a character is itself or a reference to it. -/
theorem escapeInValue_cases (c : Char) :
    (escapeInValue c = [c] ∧ c ≠ '"' ∧ c ≠ '&' ∧ c ≠ '<' ∧ (isSpace c = true → c = ' ')) ∨
      ∃ reference word, escapeInValue c = '&' :: (word ++ [';']) ∧
        reference.IsSpelled word ∧ (Piece.reference reference).char? = some c := by
  by_cases hquote : c = '"'
  · subst hquote
    exact .inr ⟨.entity "quot".toList, "quot".toList, rfl, by decide, rfl⟩
  by_cases hreturn : c = '\r'
  · subst hreturn
    exact .inr ⟨.character 13, "#13".toList, rfl, by decide, rfl⟩
  by_cases hfeed : c = '\n'
  · subst hfeed
    exact .inr ⟨.character 10, "#10".toList, rfl, by decide, rfl⟩
  by_cases htab : c = '\t'
  · subst htab
    exact .inr ⟨.character 9, "#09".toList, rfl, by decide, rfl⟩
  have hsame : escapeInValue c = escapeInText c := by
    unfold escapeInValue
    rw [if_neg hquote, if_neg hreturn, if_neg hfeed, if_neg htab]
  rw [hsame]
  refine (escapeInText_cases c).imp ?_ ?_
  · rintro ⟨hself, hamp, hlt, -⟩
    refine ⟨hself, hquote, hamp, hlt, fun hspace => ?_⟩
    simpa [isSpace, hreturn, hfeed, htab] using hspace
  · rintro ⟨name, hwritten, hspelled, hchar⟩
    exact ⟨.entity name, name, hwritten, hspelled, hchar⟩

/-- The attribute is written as this name with this value. -/
structure RawAttribute.IsWritten (raw : RawAttribute) (written : Text × Text) : Prop where
  name : raw.name = written.1
  value : raw.value.map (·.2.char?) = written.2.map some

/-- Behind the name of a tag or behind an attribute of it. -/
inductive Mode.InTag (tag : OpenTag) : Mode → Prop where
  | behindValue : InTag tag (.valueEnd tag)
  | behindName {read : Text} {colon : Colon} (hcolon : colon ≠ .fresh)
      (htag : tag = ⟨read.reverse, []⟩) : InTag tag (.tagName read colon)

namespace Lexer

variable {s s' : Lexer} {t : Text} {c : Char} {mode : Mode}

theorem goes_reference {collect : ReferenceMode → Mode}
    (hmore : ∀ (s : Lexer) (mode next : ReferenceMode) (c : Char), s.mode = collect mode →
      mode.step s.namespaces c = .more next → s.step c = s.go (collect next))
    {word : Text} {from_ to_ : ReferenceMode} (hs : s.mode = collect from_)
    (hword : from_.after s.namespaces word = some to_) : s.Goes word (collect to_) := by
  induction word generalizing s from_ with
  | nil =>
      obtain rfl := Option.some.inj hword
      exact goes_nil hs
  | cons c word ih =>
      rw [ReferenceMode.after] at hword
      split at hword
      · next next hnext =>
        exact Goes.cons (hmore s from_ next c hs hnext) fun _ _ => ih rfl hword
      · cases hword

/-! ## Attributes -/

theorem goes_valueChar {a : OpenAttribute} (hs : s.mode = .value a false) (hquote : a.quote = '"')
    (hlegal : isForbidden c = false) :
    ∃ entry : Nat × Piece, entry.2.char? = some c ∧
      s.Goes (escapeInValue c) (.value { a with pieces := entry :: a.pieces } false) := by
  rcases escapeInValue_cases c with ⟨hself, hne, hamp, hlt, hspace⟩ | ⟨reference, word, hwritten,
    hspelled, hchar⟩
  · rw [hself]
    have hstep : s.step c = s.inValue a false c := by
      unfold step
      rw [hs]
    have hquoted : c ≠ a.quote := hquote ▸ hne
    simp only [inValue, if_neg hquoted, if_neg hamp, if_neg hlt, hlegal, Bool.and_false,
      Bool.false_eq_true, if_false] at hstep
    by_cases hblank : isSpace c = true
    · obtain rfl := hspace hblank
      exact ⟨(s.index, .space), rfl, goes_of_go hstep⟩
    · simp only [Bool.not_eq_true] at hblank
      simp only [hblank, Bool.false_eq_true, if_false] at hstep
      exact ⟨(s.index, .plain c), rfl, goes_of_go hstep⟩
  · obtain ⟨mode, hmode, hdone⟩ := Option.map_eq_some_iff.1 (hspelled s.namespaces)
    refine ⟨(s.index, .reference reference), hchar, ?_⟩
    rw [hwritten]
    have hopen : s.step '&' = s.go (.valueReference a s.index .opened) := by
      unfold step
      simp [hs, inValue, hquote]
    refine Goes.cons hopen fun _ _ => Goes.append (goes_reference ?_ rfl hmode) fun _ _ => ?_
    · intro s mode next c hs hnext
      unfold step
      simp only [hs, hnext]
    · refine goes_of_go ?_
      unfold step
      simp only [placed_mode, placed_namespaces, hdone]

theorem goes_value {value : Text} (hlegal : ∀ c ∈ value, isForbidden c = false)
    {a : OpenAttribute} (hs : s.mode = .value a false) (hquote : a.quote = '"') :
    ∃ pieces : List (Nat × Piece), pieces.map (·.2.char?) = value.map some ∧
      s.Goes (value.flatMap escapeInValue)
        (.value { a with pieces := pieces.reverse ++ a.pieces } false) := by
  induction value generalizing s a with
  | nil => exact ⟨[], rfl, goes_nil hs⟩
  | cons c value ih =>
      obtain ⟨entry, hchar, hfirst⟩ := goes_valueChar hs hquote (hlegal c List.mem_cons_self)
      obtain ⟨pieces, hpieces, hboth⟩ := hfirst.append_exists fun _ _ =>
        ih (fun d hd => hlegal d (List.mem_cons_of_mem c hd)) rfl hquote
      refine ⟨entry :: pieces, by simp [hchar, hpieces], ?_⟩
      rw [List.reverse_cons, List.append_assoc, List.singleton_append]
      exact hboth

theorem step_space_of_inTag {tag : OpenTag} (h : s.mode.InTag tag) :
    s.step ' ' = s.go (.tagSpace tag) := by
  have hmore : isNameMore ' ' = false := by decide
  generalize hmode : s.mode = mode at h
  unfold step
  cases h with
  | behindValue => simp [hmode, isSpace]
  | behindName hcolon htag =>
      subst htag
      simp [hmode, inTagName, hcolon, continuesName, hmore, isSpace]

theorem step_close_of_inTag {tag : OpenTag} (h : s.mode.InTag tag) :
    s.step '>' = s.closeTag tag false := by
  have hmore : isNameMore '>' = false := by decide
  generalize hmode : s.mode = mode at h
  unfold step
  cases h with
  | behindValue => simp [hmode, isSpace]
  | behindName hcolon htag =>
      subst htag
      simp [hmode, inTagName, hcolon, continuesName, hmore, isSpace]

theorem step_slash_of_inTag {tag : OpenTag} (h : s.mode.InTag tag) :
    s.step '/' = s.go (.tagSlash tag) := by
  have hmore : isNameMore '/' = false := by decide
  generalize hmode : s.mode = mode at h
  unfold step
  cases h with
  | behindValue => simp [hmode, isSpace]
  | behindName hcolon htag =>
      subst htag
      simp [hmode, inTagName, hcolon, continuesName, hmore, isSpace]

/-- A slash may stand behind a blank or without one. -/
theorem goes_slash {tag : OpenTag} (h : s.mode.InTag tag) {gap : Text}
    (hgap : gap = [] ∨ gap = [' ']) : s.Goes (gap ++ ['/']) (.tagSlash tag) := by
  rcases hgap with rfl | rfl
  · exact goes_of_go (step_slash_of_inTag h)
  · exact (goes_of_go (step_space_of_inTag h)).append fun _ _ =>
      goes_of_go (by simp [step, inTagSpace, isSpace])

/-- A blank and the first character of a name open an attribute. -/
theorem goes_attributeOpen {tag : OpenTag} (h : s.mode.InTag tag) {first : Char}
    (hfirst : isNameStart first = true) :
    ∃ index, True ∧ s.Goes [' ', first] (.attributeName tag index [first] .none) := by
  have hspace : isSpace first = false := by
    rw [Bool.eq_false_iff]
    intro hspace
    simp only [isSpace, Bool.or_eq_true, beq_iff_eq] at hspace
    rcases hspace with ((rfl | rfl) | rfl) | rfl <;> revert hfirst <;> decide
  have hclose : first ≠ '>' := by
    rintro rfl
    revert hfirst
    decide
  have hslash : first ≠ '/' := by
    rintro rfl
    revert hfirst
    decide
  refine (goes_of_go (step_space_of_inTag h)).append_exists fun _ index => ⟨index, trivial, ?_⟩
  refine goes_of_go ?_
  simp [step, placed, inTagSpace, hspace, hclose, hslash, beginsName, hfirst]

/-- Behind its first character the name of an attribute is collected, and its value opened. -/
theorem goes_attributeName {tag : OpenTag} {index : Nat} {first : Char} {rest : Text}
    (hname : IsTagName (first :: rest)) (hs : s.mode = .attributeName tag index [first] .none) :
    s.Goes (rest ++ ['=', '"']) (.value ⟨tag, first :: rest, index, '"', []⟩ false) := by
  have hmore : isNameMore '=' = false := by decide
  obtain ⟨colon, hcolon, hrest⟩ := (collectsName_attributeName tag index).goes_name hname hs
  refine hrest.append fun _ _ => ?_
  refine Goes.cons (m := .attributeEquals tag index (first :: rest)) ?_ fun _ _ => ?_
  · simp [step, inAttributeName, hcolon, continuesName, hmore]
  · exact goes_of_go (by simp [step])

theorem goes_attributeValue {tag : OpenTag} {name : Text} {index : Nat} {value : Text}
    (hvalue : ∀ c ∈ value, isForbidden c = false) (hs : s.mode = .value ⟨tag, name, index, '"', []⟩ false) :
    ∃ raw : RawAttribute, raw.IsWritten (name, value) ∧ s.Goes (value.flatMap escapeInValue ++ ['"'])
      (.valueEnd { tag with attributes := raw :: tag.attributes }) := by
  obtain ⟨pieces, hpieces, hread⟩ := goes_value hvalue hs rfl
  refine ⟨⟨name, index, pieces⟩, ⟨rfl, hpieces⟩, hread.append fun _ _ => goes_of_go ?_⟩
  simp [step, inValue]

theorem goes_attribute {tag : OpenTag} (h : s.mode.InTag tag) {name value : Text}
    (hname : IsTagName name) (hvalue : ∀ c ∈ value, isForbidden c = false) :
    ∃ raw : RawAttribute, raw.IsWritten (name, value) ∧
      s.Goes (writeAttribute name value)
        (.valueEnd { tag with attributes := raw :: tag.attributes }) := by
  obtain ⟨first, rest, rfl, hfirst⟩ := hname.cons
  obtain ⟨index, -, hopen⟩ := goes_attributeOpen h hfirst
  have hnamed := hopen.append fun _ _ => goes_attributeName hname rfl
  have hwritten : writeAttribute (first :: rest) value =
      ([' ', first] ++ (rest ++ ['=', '"'])) ++ (value.flatMap escapeInValue ++ ['"']) := by
    simp [writeAttribute]
  rw [hwritten]
  exact hnamed.append_exists fun _ _ => goes_attributeValue hvalue rfl

/-- A name that does not begin behind its colon is no name of an attribute. -/
theorem fails_attribute {tag : OpenTag} (h : s.mode.InTag tag) (hns : s.namespaces = true)
    {short : Text} (hshort : isPlainName short = true) (hc : isNameStart c = false)
    (more value : Text) : s.Fails (writeAttribute (short ++ ':' :: c :: more) value) := by
  obtain ⟨first, rest, rfl, hfirst⟩ := (IsTagName.plain hshort).cons
  obtain ⟨index, -, hopen⟩ := goes_attributeOpen h hfirst
  have hmore (c : Char) (hc : c ∈ rest) : isNameMore c = true :=
    isNameMore_of_isPlainName hshort (List.mem_cons_of_mem _ hc)
  have hcollects := collectsName_attributeName tag index
  have hcolon : s.Goes (([' ', first] ++ rest) ++ [':'])
      (.attributeName tag index (':' :: (rest.reverse ++ [first])) .fresh) := by
    refine (hopen.append fun _ _ => hcollects.goes_more hmore (by decide) rfl).append fun _ _ => ?_
    refine goes_of_go ?_
    rw [hcollects.mark _ _ rfl, placed_namespaces, hns]
    rfl
  obtain ⟨_, _, hscan⟩ := hcolon
  have hwritten : writeAttribute (first :: rest ++ ':' :: c :: more) value =
      ([' ', first] ++ rest ++ [':']) ++
        ([c] ++ (more ++ '=' :: '"' :: value.flatMap escapeInValue ++ ['"'])) := by
    simp [writeAttribute]
  rw [hwritten]
  refine hscan.fails (Fails.append ?_ _)
  refine fails_of_refuse ?_
  simp [step, inAttributeName, hc]

theorem goes_attributes {tag : OpenTag} (h : s.mode.InTag tag) {written : List (Text × Text)}
    (hwritten : ∀ entry ∈ written, IsTagName entry.1 ∧ ∀ c ∈ entry.2, isForbidden c = false) :
    ∃ x : List RawAttribute × Mode, (List.Forall₂ RawAttribute.IsWritten x.1 written ∧
        x.2.InTag { tag with attributes := x.1.reverse ++ tag.attributes }) ∧
      s.Goes (written.flatMap fun entry => writeAttribute entry.1 entry.2) x.2 := by
  induction written generalizing s tag with
  | nil => exact ⟨([], s.mode), ⟨.nil, h⟩, goes_nil rfl⟩
  | cons entry written ih =>
      obtain ⟨hname, hvalue⟩ := hwritten entry List.mem_cons_self
      obtain ⟨raw, hraw, hfirst⟩ := goes_attribute h hname hvalue
      obtain ⟨⟨raws, mode⟩, ⟨hraws, hmode⟩, hboth⟩ := hfirst.append_exists fun _ _ =>
        ih .behindValue fun entry hentry => hwritten entry (List.mem_cons_of_mem _ hentry)
      refine ⟨(raw :: raws, mode), ⟨.cons hraw hraws, ?_⟩, hboth⟩
      rwa [List.reverse_cons, List.append_assoc, List.singleton_append]

end Lexer

/-! ## Places in the content -/

/-- Outside all markup; where text may have been read, marks of it may be remembered. -/
inductive Mode.InText : (behindText : Bool) → Mode → Prop where
  | text {behindText : Bool} : InText behindText .text
  | bracket (two : Bool) : InText true (.textBracket two)
  | lineEnd : InText true .textReturn

/-- The scanner is outside all markup inside of `n` elements; behind the root no element is open. -/
structure Lexer.AtText (s : Lexer) (ns : Bool) (n : Nat) (behindText : Bool) : Prop where
  namespaces : s.namespaces = ns
  depth : s.depth = n
  zone : s.zone = if n = 0 then .epilog else .content
  mode : if n = 0 then s.mode = .between else s.mode.InText behindText

namespace Lexer

variable {s s' : Lexer} {t : Text} {c : Char} {mode : Mode} {ns : Bool} {n : Nat}
  {behindText : Bool}

theorem AtText.weaken (h : s.AtText ns n false) (behindText : Bool) :
    s.AtText ns n behindText := by
  refine ⟨h.namespaces, h.depth, h.zone, ?_⟩
  have hmode := h.mode
  split
  · next hdepth => rwa [if_pos hdepth] at hmode
  · next hdepth =>
    rw [if_neg hdepth] at hmode
    generalize s.mode = mode at hmode
    cases hmode
    exact .text

theorem AtText.inText (h : s.AtText ns (n + 1) behindText) : s.mode.InText behindText := by
  have hmode := h.mode
  rwa [if_neg (Nat.succ_ne_zero n)] at hmode

theorem AtText.content (h : s.AtText ns (n + 1) behindText) : s.zone = .content := by
  rw [h.zone, if_neg (Nat.succ_ne_zero n)]

theorem goes_markup (h : s.AtText ns (n + 1) behindText) : s.Goes ['<'] .markup := by
  have hmode := h.inText
  generalize hs : s.mode = mode at hmode
  cases hmode with
  | text => exact ⟨s.index, s.index + 1, scans_singleton (by simp [step, hs, Lexer.inText]; rfl)⟩
  | bracket two =>
    exact ⟨s.index, s.index + 1, scans_singleton (by simp [step, hs, Lexer.inText]; rfl)⟩
  | lineEnd =>
    exact ⟨s.index, s.index + 1, scans_singleton (by simp [step, hs, Lexer.inText]; rfl)⟩

/-! ## Tags -/

/-- What closes an empty element leads back to the place of the element. -/
theorem closeTag_ok (hns : s.namespaces = ns) (hdepth : s.depth = n) (hzone : s.zone = .content)
    (tag : OpenTag) : ∃ s', s.closeTag tag true = .ok s' ∧ s'.AtText ns n false ∧
      s'.tokens =
        (s.first, .startTag tag.name tag.attributes.reverse true (s.index + 1)) :: s.tokens := by
  let token := Token.startTag tag.name tag.attributes.reverse true (s.index + 1)
  cases n with
  | zero =>
      have hclose : s.closeTag tag true = { s with zone := .epilog }.emit token .between := by
        rw [closeTag, if_pos rfl, if_pos hdepth]
      exact ⟨_, hclose, ⟨hns, hdepth, rfl, rfl⟩, rfl⟩
  | succ n =>
      have hclose : s.closeTag tag true = s.emit token .text := by
        rw [closeTag, if_pos rfl, if_neg (by omega)]
      exact ⟨_, hclose, ⟨hns, hdepth, hzone, .text⟩, rfl⟩

theorem closeElement_ok (hns : s.namespaces = ns) (hdepth : s.depth = n + 1)
    (hzone : s.zone = .content) (name : Text) :
    ∃ s', s.closeElement name = .ok s' ∧ s'.AtText ns n false ∧
      s'.tokens = (s.first, .endTag name) :: s.tokens := by
  cases n with
  | zero =>
      have hclose : s.closeElement name =
          { s with zone := .epilog, depth := 0 }.emit (.endTag name) .between := by
        rw [closeElement, if_pos (by omega)]
      exact ⟨_, hclose, ⟨hns, rfl, rfl, rfl⟩, rfl⟩
  | succ n =>
      have hclose : s.closeElement name =
          { s with depth := s.depth - 1 }.emit (.endTag name) .text := by
        rw [closeElement, if_neg (by omega)]
      have hbelow : s.depth - 1 = n + 1 := by omega
      exact ⟨_, hclose, ⟨hns, hbelow, hzone, .text⟩, rfl⟩

section Tags

variable (hns : s.namespaces = ns) (hdepth : s.depth = n) (hzone : s.zone = .content)
  {first : Char} {rest : Text} (hname : IsTagName (first :: rest))
  (hs : s.mode = .tagName [first] .none) {written : List (Text × Text)}
  (hwritten : ∀ entry ∈ written, IsTagName entry.1 ∧ ∀ c ∈ entry.2, isForbidden c = false)

include hname hs hwritten

/-- Behind the first character of its name a tag is collected with its attributes. -/
theorem goes_tag : ∃ x : List RawAttribute × Mode,
    (List.Forall₂ RawAttribute.IsWritten x.1 written ∧
      x.2.InTag ⟨first :: rest, x.1.reverse⟩) ∧
    s.Goes (rest ++ written.flatMap fun entry => writeAttribute entry.1 entry.2) x.2 := by
  obtain ⟨colon, hcolon, hnamed⟩ := collectsName_tagName.goes_name hname hs
  refine hnamed.append_exists fun _ _ => ?_
  have htag : (Mode.tagName (first :: rest).reverse colon).InTag ⟨first :: rest, []⟩ :=
    .behindName hcolon (by rw [List.reverse_reverse])
  obtain ⟨x, ⟨hraws, hmode⟩, hgoes⟩ := goes_attributes (s := s.placed _ _ _) htag hwritten
  rw [List.append_nil] at hmode
  exact ⟨x, ⟨hraws, hmode⟩, hgoes⟩

include hns hdepth hzone

theorem scans_startTag :
    ∃ s' place raws stop, List.Forall₂ RawAttribute.IsWritten raws written ∧
      s.Scans (rest ++ (written.flatMap fun entry => writeAttribute entry.1 entry.2) ++ ['>']) s' ∧
      s'.tokens = (place, .startTag (first :: rest) raws false stop) :: s.tokens ∧
      s'.AtText ns (n + 1) false := by
  obtain ⟨⟨raws, mode⟩, ⟨hraws, hmode⟩, place, index, hgoes⟩ := goes_tag hname hs hwritten
  have hclose : (s.placed mode place index).step '>' = _ := step_close_of_inTag hmode
  simp only [closeTag, List.reverse_reverse] at hclose
  refine ⟨_, place, raws, index + 1, hraws, hgoes.append (scans_singleton hclose), rfl, ?_⟩
  exact ⟨hns, congrArg (· + 1) hdepth, hzone, .text⟩

/-- An empty element is one token, too. -/
theorem scans_emptyTag {gap : Text} (hgap : gap = [] ∨ gap = [' ']) :
    ∃ s' place raws stop, List.Forall₂ RawAttribute.IsWritten raws written ∧
      s.Scans (rest ++ (written.flatMap fun entry => writeAttribute entry.1 entry.2) ++
        (gap ++ ['/', '>'])) s' ∧
      s'.tokens = (place, .startTag (first :: rest) raws true stop) :: s.tokens ∧
      s'.AtText ns n false := by
  obtain ⟨⟨raws, mode⟩, ⟨hraws, hmode⟩, hgoes⟩ := goes_tag hname hs hwritten
  obtain ⟨place, index, hscan⟩ := hgoes.append fun _ _ => goes_slash hmode hgap
  obtain ⟨s', hclose, hplace, htokens⟩ :=
    @closeTag_ok (s.placed (.tagSlash ⟨first :: rest, raws.reverse⟩) place index) ns n hns hdepth
      hzone ⟨first :: rest, raws.reverse⟩
  have hstep : (s.placed (.tagSlash ⟨first :: rest, raws.reverse⟩) place index).step '>' =
      .ok s' := by
    rw [← hclose]
    simp [step]
  have hwhole := hscan.append (scans_singleton hstep)
  rw [List.append_assoc, List.append_assoc gap] at hwhole
  rw [List.reverse_reverse] at htokens
  exact ⟨s', place, raws, index + 1, hraws, hwhole, htokens, hplace⟩

end Tags

theorem scans_endTag (h : s.AtText ns (n + 1) behindText) {word : Text} (hword : IsTagName word) :
    ∃ s' place, s.Scans ('<' :: '/' :: (word ++ ['>'])) s' ∧
      s'.tokens = (place, .endTag word) :: s.tokens ∧ s'.AtText ns n false := by
  have hmore : isNameMore '>' = false := by decide
  have hslash : beginsName s.namespaces '/' = false := by
    cases s.namespaces <;> decide
  have hchars := hword.isNameMore_or_colon
  obtain ⟨first, rest, rfl, hfirst⟩ := hword.cons
  have hname : s.Goes (['<'] ++ ('/' :: first :: rest)) (.endName (first :: rest).reverse) := by
    refine (goes_markup h).append fun _ _ => ?_
    refine Goes.cons (m := .endOpen) (by simp [step, inMarkup, hslash]) fun _ _ => ?_
    refine Goes.cons (m := .endName [first]) (by simp [step, beginsName, hfirst]) fun _ _ => ?_
    rw [List.reverse_cons]
    refine goes_many .endName (fun s read c hc _ hs => ?_) rfl _ rfl
    unfold step
    simp only [hs]
    exact if_pos (by simpa using hchars c (List.mem_cons_of_mem _ hc))
  obtain ⟨place, index, hscan⟩ := hname
  obtain ⟨s', hclose, hplace, htokens⟩ :=
    @closeElement_ok (s.placed (.endName (first :: rest).reverse) place index) ns n h.namespaces
      h.depth h.content (first :: rest)
  have hstep : (s.placed (.endName (first :: rest).reverse) place index).step '>' = .ok s' := by
    rw [← hclose]
    simp [step, hmore, isSpace]
  exact ⟨s', place, hscan.append (scans_singleton hstep), htokens, hplace⟩

end Lexer

/-! ## Text and comments -/

/-- The character that a token of the text stands for by itself. -/
def Token.char? : Token → Option Char
  | .char c => some c
  | .reference (.character code) => referredChar? code
  | .reference (.entity name) => predefinedEntity? name
  | _ => none

/-- The body of a comment: no two hyphens follow each other, and none ends it. -/
inductive IsCommentBody : Text → Prop where
  | nil : IsCommentBody []
  | plain {c : Char} {rest : Text} (hc : c ≠ '-') (hrest : IsCommentBody rest) :
      IsCommentBody (c :: rest)
  | hyphen {c : Char} {rest : Text} (hc : c ≠ '-') (hrest : IsCommentBody rest) :
      IsCommentBody ('-' :: c :: rest)

namespace Lexer

variable {s s' : Lexer} {t : Text} {c : Char} {mode : Mode} {ns : Bool} {n : Nat}
  {behindText : Bool}

theorem step_eq_inText (h : s.mode.InText behindText) (hgt : c ≠ '>') (hbracket : c ≠ ']')
    (hreturn : s.mode = .textReturn → c ≠ '\n') : s.step c = s.inText c := by
  generalize hs : s.mode = mode at h hreturn
  unfold step
  cases h with
  | text => simp only [hs]
  | bracket two => simp [hs, hgt, hbracket]
  | lineEnd => simp [hs, hreturn rfl]

/-- A token of the text leads to text. -/
theorem scans_emit (hns : s.namespaces = ns) (hdepth : s.depth = n + 1) (hzone : s.zone = .content)
    {token : Token} {place : Nat} (hmode : mode.InText behindText)
    (hstep : s.step c = { s with first := place }.emit token mode) :
    ∃ s', s.Scans [c] s' ∧ s'.tokens = (place, token) :: s.tokens ∧
      s'.AtText ns (n + 1) behindText ∧ s'.mode = mode :=
  ⟨_, scans_singleton hstep, rfl, ⟨hns, hdepth, hzone, hmode⟩, rfl⟩

theorem step_bracket (h : s.mode.InText behindText) :
    ∃ two, s.step ']' = { s with first := s.index }.emit (.char ']') (.textBracket two) := by
  generalize hs : s.mode = mode at h
  unfold step
  cases h with
  | text => exact ⟨false, by simp [hs, Lexer.inText]⟩
  | bracket two => exact ⟨true, by simp [hs, single]⟩
  | lineEnd => exact ⟨false, by simp [hs, Lexer.inText]⟩

/-- A character of the text that is no line end gives one token. -/
theorem scans_textChar (h : s.AtText ns (n + 1) behindText) (hlegal : isForbidden c = false)
    (hline : c ≠ '\r') (hreturn : s.mode = .textReturn → c ≠ '\n') :
    ∃ s' entry, s.Scans (escapeInText c) s' ∧ entry.2.char? = some c ∧
      s'.tokens = entry :: s.tokens ∧ s'.AtText ns (n + 1) true ∧ s'.mode ≠ .textReturn := by
  rcases escapeInText_cases c with ⟨hself, hamp, hlt, hgt⟩ | ⟨name, hwritten, hspelled, hchar⟩
  · rw [hself]
    obtain ⟨mode, hmode, hne, hstep⟩ : ∃ mode : Mode, mode.InText true ∧ mode ≠ .textReturn ∧
        s.step c = { s with first := s.index }.emit (.char c) mode := by
      by_cases hbracket : c = ']'
      · subst hbracket
        obtain ⟨two, hstep⟩ := step_bracket h.inText
        exact ⟨_, .bracket two, Mode.noConfusion, hstep⟩
      · refine ⟨_, .text, Mode.noConfusion, ?_⟩
        rw [step_eq_inText h.inText hgt hbracket hreturn]
        simp [Lexer.inText, hlt, hamp, hline, hbracket, hlegal]
    obtain ⟨s', hscan, htokens, hplace, hmode'⟩ :=
      scans_emit h.namespaces h.depth h.content hmode hstep
    exact ⟨s', _, hscan, rfl, htokens, hplace, hmode' ▸ hne⟩
  · obtain ⟨last, hlast, hdone⟩ := Option.map_eq_some_iff.1 (hspelled s.namespaces)
    have hopen : s.Goes ['&'] (.textReference .opened) := by
      refine ⟨s.index, s.index + 1, scans_singleton ?_⟩
      rw [step_eq_inText h.inText (by decide) (by decide) (fun _ => by decide)]
      simp [Lexer.inText, opens, placed]
    have hread : s.Goes (['&'] ++ name) (.textReference last) := by
      refine hopen.append fun _ _ => goes_reference ?_ rfl hlast
      intro s mode next c hs hnext
      unfold step
      simp only [hs, hnext]
    obtain ⟨place, index, hread⟩ := hread
    have hstep : (s.placed (.textReference last) place index).step ';' =
        (s.placed (.textReference last) place index).emit (.reference (.entity name)) .text := by
      unfold step
      simp only [placed_mode, placed_namespaces, hdone]
    obtain ⟨s', hscan, htokens, hplace, hmode⟩ :=
      scans_emit (s := s.placed (.textReference last) place index) h.namespaces h.depth h.content
        .text hstep
    rw [hwritten]
    exact ⟨s', (place, .reference (.entity name)), hread.append hscan, hchar, htokens, hplace,
      by rw [hmode]; exact Mode.noConfusion⟩

/-- A carriage return gives a line feed. -/
theorem scans_return (h : s.AtText ns (n + 1) behindText) :
    ∃ s', s.Scans ['\r'] s' ∧ s'.tokens = (s.index, .char '\n') :: s.tokens ∧
      s'.AtText ns (n + 1) true ∧ s'.mode = .textReturn := by
  refine scans_emit h.namespaces h.depth h.content .lineEnd ?_
  rw [step_eq_inText h.inText (by decide) (by decide) (fun _ => by decide)]
  simp [Lexer.inText]

/-- Behind a carriage return a line feed is passed over. -/
theorem scans_feed (h : s.AtText ns (n + 1) behindText) (hs : s.mode = .textReturn) :
    ∃ s', s.Scans ['\n'] s' ∧ s'.tokens = s.tokens ∧ s'.AtText ns (n + 1) true ∧
      s'.mode = .text :=
  ⟨s.placed .text s.first (s.index + 1), scans_singleton (by simp [step, hs, go, placed]), rfl,
    ⟨h.namespaces, h.depth, h.zone, .text⟩, rfl⟩

/-- A text is read with its line ends unified. -/
theorem scans_text (h : s.AtText ns (n + 1) true) (hlegal : ∀ c ∈ t, isForbidden c = false)
    (hreturn : s.mode = .textReturn → t.head? ≠ some '\n') :
    ∃ (s' : Lexer) (entries : List (Nat × Token)), s.Scans (t.flatMap escapeInText) s' ∧
      entries.map (·.2.char?) = (Text.unifyLines t).map some ∧
      s'.tokens = entries.reverse ++ s.tokens ∧ s'.AtText ns (n + 1) true := by
  have hescape : escapeInText '\r' = ['\r'] ∧ escapeInText '\n' = ['\n'] := by decide
  induction t using Text.unifyLines.induct generalizing s with
  | case1 => exact ⟨s, [], .nil s, rfl, rfl, h⟩
  | case2 rest ih =>
      obtain ⟨s₁, hscan₁, htokens₁, hplace₁, hmode₁⟩ := scans_return h
      obtain ⟨s₂, hscan₂, htokens₂, hplace₂, hmode₂⟩ := scans_feed hplace₁ hmode₁
      obtain ⟨s', entries, hscan, hentries, htokens, hplace⟩ := ih hplace₂
        (fun c hc => hlegal c (List.mem_cons_of_mem _ (List.mem_cons_of_mem _ hc)))
        (by simp [hmode₂])
      refine ⟨s', (s.index, .char '\n') :: entries, ?_, ?_, ?_, hplace⟩
      · simpa only [List.flatMap_cons, hescape, List.append_assoc] using
          hscan₁.append (hscan₂.append hscan)
      · simpa [Text.unifyLines, Token.char?] using hentries
      · simp [htokens, htokens₂, htokens₁]
  | case3 c rest hpair ih =>
      have hunify : Text.unifyLines (c :: rest) =
          (if c = '\r' then '\n' else c) :: Text.unifyLines rest := by
        rw [Text.unifyLines]
        exact hpair
      have hrest (d : Char) (hd : d ∈ rest) : isForbidden d = false :=
        hlegal d (List.mem_cons_of_mem c hd)
      obtain ⟨s₁, entry, hscan₁, hchar, htokens₁, hplace₁, hreturn₁⟩ : ∃ (s₁ : Lexer)
          (entry : Nat × Token), s.Scans (escapeInText c) s₁ ∧
          entry.2.char? = some (if c = '\r' then '\n' else c) ∧ s₁.tokens = entry :: s.tokens ∧
          s₁.AtText ns (n + 1) true ∧ (s₁.mode = .textReturn → rest.head? ≠ some '\n') := by
        by_cases hc : c = '\r'
        · subst hc
          obtain ⟨s₁, hscan₁, htokens₁, hplace₁, -⟩ := scans_return h
          refine ⟨s₁, _, hscan₁, rfl, htokens₁, hplace₁, fun _ hhead => ?_⟩
          obtain ⟨more, rfl⟩ := List.head?_eq_some_iff.1 hhead
          exact hpair more rfl rfl
        · have hfeed : s.mode = .textReturn → c ≠ '\n' := fun hmode hc =>
            hreturn hmode (congrArg some hc)
          obtain ⟨s₁, entry, hscan₁, hchar, htokens₁, hplace₁, hmode₁⟩ :=
            scans_textChar h (hlegal c List.mem_cons_self) hc hfeed
          exact ⟨s₁, entry, hscan₁, by rw [hchar, if_neg hc], htokens₁, hplace₁,
            fun hmode => absurd hmode hmode₁⟩
      obtain ⟨s', entries, hscan, hentries, htokens, hplace⟩ := ih hplace₁ hrest hreturn₁
      refine ⟨s', entry :: entries, hscan₁.append hscan, ?_, ?_, hplace⟩
      · rw [hunify, List.map_cons, List.map_cons, hchar, hentries]
      · rw [htokens, htokens₁, List.reverse_cons, List.append_assoc, List.singleton_append]

theorem goes_commentBody {body : Text} (hbody : IsCommentBody body)
    (hlegal : ∀ c ∈ body, isForbidden c = false) {read : Text} (hs : s.mode = .comment read) :
    s.Goes body (.comment (body.reverse ++ read)) := by
  induction hbody generalizing s read with
  | nil => exact goes_nil hs
  | @plain c rest hc _ ih =>
      have hstep : s.step c = s.go (.comment (c :: read)) := by
        simp [step, hs, hc, hlegal c List.mem_cons_self]
      rw [List.reverse_cons, List.append_assoc, List.singleton_append]
      exact Goes.cons hstep fun _ _ => ih (fun d hd => hlegal d (List.mem_cons_of_mem c hd)) rfl
  | @hyphen c rest hc _ ih =>
      have hstep : s.step '-' = s.go (.commentDash read) := by simp [step, hs]
      have hcLegal : isForbidden c = false := hlegal c (by simp)
      have hread : ('-' :: c :: rest).reverse ++ read = rest.reverse ++ c :: '-' :: read := by simp
      rw [hread]
      refine Goes.cons hstep fun _ _ => Goes.cons (m := .comment (c :: '-' :: read)) ?_ fun _ _ => ?_
      · simp [step, hc, hcLegal]
      · exact ih (fun d hd => hlegal d (by simp [hd])) rfl

theorem scans_comment (h : s.AtText ns (n + 1) behindText) {body : Text}
    (hbody : IsCommentBody body) (hlegal : ∀ c ∈ body, isForbidden c = false) :
    ∃ s' place, s.Scans ("<!--".toList ++ body ++ "-->".toList) s' ∧
      s'.tokens = (place, .comment (Text.unifyLines body)) :: s.tokens ∧
      s'.AtText ns (n + 1) false := by
  have hbang : beginsName s.namespaces '!' = false := by
    cases s.namespaces <;> decide
  have hread : s.Goes (['<'] ++ '!' :: '-' :: '-' :: (body ++ ['-', '-']))
      (.commentDashes body.reverse) := by
    refine (goes_markup h).append fun _ _ => ?_
    refine Goes.cons (m := .bang) (by simp [step, inMarkup, hbang]) fun _ _ => ?_
    refine Goes.cons (m := .bangDash) (by simp [step]) fun _ _ => ?_
    refine Goes.cons (m := .comment []) (by simp [step]) fun _ _ => ?_
    refine (goes_commentBody hbody hlegal rfl).append fun _ _ => ?_
    rw [List.append_nil]
    refine Goes.cons (m := .commentDash body.reverse) (by simp [step]) fun _ _ => ?_
    exact goes_of_go (by simp [step])
  obtain ⟨place, index, hscan⟩ := hread
  have hstep : (s.placed (.commentDashes body.reverse) place index).step '>' =
      (s.placed (.commentDashes body.reverse) place index).emit
        (.comment (Text.unifyLines body)) .text := by
    simp [step, neutral, h.content]
  obtain ⟨s', hend, htokens, hplace, -⟩ :=
    scans_emit (s := s.placed (.commentDashes body.reverse) place index) h.namespaces h.depth
      h.content .text hstep
  refine ⟨s', place, ?_, htokens, hplace⟩
  have hwritten : "<!--".toList ++ body ++ "-->".toList =
      (['<'] ++ '!' :: '-' :: '-' :: (body ++ ['-', '-'])) ++ ['>'] := by simp
  rw [hwritten]
  exact hscan.append hend

/-! ## The root -/

/-- The root element opens behind everything that stands before it. -/
theorem scans_rootOpen (hs : s.mode = .start ∨ s.mode = .between) {first : Char}
    (hfirst : isNameStart first = true) :
    ∃ s' place, s.Scans ['<', first] s' ∧ s'.tokens = (place, .rootStart) :: s.tokens ∧
      s'.namespaces = s.namespaces ∧ s'.depth = s.depth ∧ s'.zone = .content ∧
      s'.mode = .tagName [first] .none := by
  have hbang : first ≠ '!' := by
    rintro rfl
    revert hfirst
    decide
  have hmark : first ≠ '?' := by
    rintro rfl
    revert hfirst
    decide
  have hopen : s.step '<' = .ok (s.placed .declMarkup s.index (s.index + 1)) := by
    rcases hs with hs | hs <;> simp [step, hs, inBetween, opens, placed]
  have hname : (s.placed .declMarkup s.index (s.index + 1)).step first =
      { (s.placed .declMarkup s.index (s.index + 1)).add .rootStart with zone := .content }.go
        (.tagName [first] .none) := by
    simp [step, inDeclMarkup, hbang, hmark, beginsName, hfirst, inMarkup]
  exact ⟨_, s.index, (scans_singleton hopen).append (scans_singleton hname), rfl, rfl, rfl, rfl,
    rfl⟩

/-- Behind the root there may be line feeds. -/
theorem scans_space (h : s.AtText ns 0 behindText) :
    ∃ s' place, s.Scans ['\n'] s' ∧ s'.tokens = (place, .space) :: s.tokens ∧
      s'.AtText ns 0 behindText := by
  have hmode : s.mode = .between := h.mode
  have hstep : s.step '\n' = { s with first := s.index }.emit .space .between := by
    simp [step, hmode, inBetween, isSpace]
  exact ⟨_, s.index, scans_singleton hstep, rfl, ⟨h.namespaces, h.depth, h.zone, rfl⟩⟩

end Lexer

end BundleHook.Markup
