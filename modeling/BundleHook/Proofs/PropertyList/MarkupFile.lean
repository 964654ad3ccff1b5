import BundleHook.PropertyList.Update
import BundleHook.Proofs.Markup.Growing
import BundleHook.Proofs.Markup.Legality
import BundleHook.Proofs.PropertyList.Rereading
import BundleHook.Proofs.Text.Utf8

/-!
# Written files are read again

A property list in markup is written in UTF-8 behind a fixed head, and the file is read as the value
that it was written for, with its line ends unified.
-/

namespace BundleHook.PropertyList

open Markup
open Utf8 (isTrail trailBits isTrail_trail trailBits_trail toNat_ofNat_of_lt)

/-! ## Octets -/

section Characters

variable {n : Nat} (rest : Bytes)

theorem decodeUtf8_one (h : n < 0x80) :
    decodeUtf8 (UInt8.ofNat n :: rest) = Char.ofNat n :: decodeUtf8 rest := by
  have ha := toNat_ofNat_of_lt (n := n) (by omega)
  rw [decodeUtf8.eq_def (UInt8.ofNat n :: rest)]
  dsimp only
  rw [if_pos (by rw [UInt8.lt_iff_toNat_lt, ha]; exact h), ha]

/-- The first octets of longer characters are told apart by their numbers. -/
theorem lead_cases {k : Nat} (hlow : 0xC2 ≤ k) (hhigh : k < 0xF5) :
    ¬UInt8.ofNat k < (0x80 : UInt8) ∧
      ¬(UInt8.ofNat k < (0xC0 : UInt8) || (0xF5 : UInt8) ≤ UInt8.ofNat k) = true ∧
      (0xC2 : UInt8) ≤ UInt8.ofNat k ∧
      (UInt8.ofNat k < (0xE0 : UInt8) ↔ k < 0xE0) ∧
      (UInt8.ofNat k < (0xF0 : UInt8) ↔ k < 0xF0) := by
  have hk := toNat_ofNat_of_lt (n := k) (by omega)
  simp only [Bool.or_eq_true, decide_eq_true_eq, UInt8.lt_iff_toNat_lt, UInt8.le_iff_toNat_le, hk]
  show ¬k < 0x80 ∧ ¬(k < 0xC0 ∨ 0xF5 ≤ k) ∧ 0xC2 ≤ k ∧ (k < 0xE0 ↔ k < 0xE0) ∧ (k < 0xF0 ↔ k < 0xF0)
  omega

theorem decodeUtf8_two (hlow : 0x80 ≤ n) (h : n < 0x800) :
    decodeUtf8 (UInt8.ofNat (0xC0 + n / 64) :: UInt8.ofNat (0x80 + n % 64) :: rest) =
      Char.ofNat n :: decodeUtf8 rest := by
  have ha := toNat_ofNat_of_lt (n := 0xC0 + n / 64) (by omega)
  obtain ⟨hone, hlead, hfirst, htwo, -⟩ := lead_cases (k := 0xC0 + n / 64) (by omega) (by omega)
  have hvalue : (0xC0 + n / 64) % 32 * 64 + n % 64 = n := by omega
  rw [decodeUtf8, if_neg hone, if_neg hlead, if_pos (htwo.2 (by omega))]
  simp only [isTrail_trail, trailBits_trail, hfirst, ha, hvalue, decide_true, Bool.and_self,
    if_true]

theorem decodeUtf8_three (hlow : 0x800 ≤ n) (h : n < 0x10000)
    (hscalar : ¬(0xD800 ≤ n ∧ n < 0xE000)) (hmark : n ≠ cutOff.toNat) :
    decodeUtf8 (UInt8.ofNat (0xE0 + n / 4096) :: UInt8.ofNat (0x80 + n / 64 % 64) ::
      UInt8.ofNat (0x80 + n % 64) :: rest) = Char.ofNat n :: decodeUtf8 rest := by
  have ha := toNat_ofNat_of_lt (n := 0xE0 + n / 4096) (by omega)
  obtain ⟨hone, hlead, -, htwo, hthree⟩ :=
    lead_cases (k := 0xE0 + n / 4096) (by omega) (by omega)
  have hvalue : ((0xE0 + n / 4096) % 16 * 64 + n / 64 % 64) * 64 + n % 64 = n := by omega
  have hbounds : (decide (0x800 ≤ n) && !(decide (0xD800 ≤ n) && decide (n < 0xE000))) = true := by
    simp only [hlow, decide_true, Bool.true_and, Bool.not_eq_true', Bool.and_eq_false_iff,
      decide_eq_false_iff_not]
    omega
  rw [decodeUtf8, if_neg hone, if_neg hlead, if_neg (mt htwo.1 (by omega)),
    if_pos (hthree.2 (by omega))]
  simp only [isTrail_trail, trailBits_trail, ha, hvalue, Bool.true_and, hbounds, if_true, charOf,
    if_neg hmark]

theorem decodeUtf8_four (hlow : 0x10000 ≤ n) (h : n < 0x110000) :
    decodeUtf8 (UInt8.ofNat (0xF0 + n / 262144) :: UInt8.ofNat (0x80 + n / 4096 % 64) ::
      UInt8.ofNat (0x80 + n / 64 % 64) :: UInt8.ofNat (0x80 + n % 64) :: rest) =
      Char.ofNat n :: decodeUtf8 rest := by
  have ha := toNat_ofNat_of_lt (n := 0xF0 + n / 262144) (by omega)
  obtain ⟨hone, hlead, -, htwo, hthree⟩ :=
    lead_cases (k := 0xF0 + n / 262144) (by omega) (by omega)
  have hvalue : (((0xF0 + n / 262144) % 8 * 64 + n / 4096 % 64) * 64 + n / 64 % 64) * 64 +
      n % 64 = n := by omega
  rw [decodeUtf8, if_neg hone, if_neg hlead, if_neg (mt htwo.1 (by omega)),
    if_neg (mt hthree.1 (by omega))]
  simp only [isTrail_trail, trailBits_trail, ha, hvalue, hlow, h, decide_true, Bool.and_self,
    if_true]

end Characters

theorem decodeUtf8_cutOff (rest : Bytes) :
    decodeUtf8 (0xEF :: 0xBF :: 0xBE :: rest) = garbled :: decodeUtf8 rest := by
  rw [decodeUtf8]
  rfl

theorem decodeUtf8_octetsOf (c : Char) (rest : Bytes) :
    decodeUtf8 (Utf8.octetsOf c ++ rest) =
      (if c = cutOff then garbled else c) :: decodeUtf8 rest := by
  by_cases hc : c = cutOff
  · subst hc
    exact decodeUtf8_cutOff rest
  have hvalid : c.toNat < 0xD800 ∨ 0xDFFF < c.toNat ∧ c.toNat < 0x110000 := c.valid
  have hmark : c.toNat ≠ cutOff.toNat := fun h => hc (Char.toNat_inj.1 h)
  have hofNat : Char.ofNat c.toNat :: decodeUtf8 rest = c :: decodeUtf8 rest := by
    rw [Char.ofNat_toNat]
  rw [if_neg hc]
  unfold Utf8.octetsOf
  dsimp only
  split
  · next hone => exact (decodeUtf8_one rest hone).trans hofNat
  · next hone =>
    split
    · next htwo => exact (decodeUtf8_two rest (by omega) htwo).trans hofNat
    · next htwo =>
      split
      · next hthree =>
        exact (decodeUtf8_three rest (by omega) hthree (by omega) hmark).trans hofNat
      · next hthree => exact (decodeUtf8_four rest (by omega) (by omega)).trans hofNat

/-- A text is read from its octets, but that one of the two marks becomes the other. -/
theorem decodeUtf8_encode (t : Text) : decodeUtf8 (Utf8.encode t) = withoutMarks t := by
  induction t with
  | nil => rfl
  | cons c t ih =>
      rw [Utf8.encode, List.flatMap_cons, decodeUtf8_octetsOf]
      exact congrArg _ ih

theorem withoutMarks_append (t t' : Text) :
    withoutMarks (t ++ t') = withoutMarks t ++ withoutMarks t' := List.map_append

theorem isLegal_of_withoutMarks {t : Text} (h : IsLegal (withoutMarks t)) : IsLegal t := by
  intro c hc
  have hlegal := h _ (List.mem_map_of_mem hc)
  split at hlegal
  · exact absurd hlegal (by decide)
  · exact hlegal

/-! ## The head -/

def xmlDeclaration : Text := "<?xml version=\"1.0\" encoding=\"UTF-8\"?>\n".toList

def documentType : Text :=
  "<!DOCTYPE plist PUBLIC \"-//Apple//DTD PLIST 1.0//EN\" ".toList ++
    "\"http://www.apple.com/DTDs/PropertyList-1.0.dtd\">\n".toList

/-- What the document type defines: some declarations lie outside the document. -/
def typeDefinitions : Definitions := ⟨false, [], [], true, false, false⟩

theorem arePlain_typeDefinitions : ArePlain typeDefinitions := ⟨rfl, rfl⟩

/-- What the declaration says. -/
def declarationBody : Text := " version=\"1.0\" encoding=\"UTF-8\"".toList

theorem scans_xmlDeclaration : (Lexer.initial false).Scans xmlDeclaration
    ⟨false, .prolog, .between, 38, 39, 0, [(38, .space), (0, .declaration declarationBody)]⟩ := by
  unfold Lexer.Scans
  rfl

theorem exists_scans_documentType : ∃ s : Lexer,
    (⟨false, .prolog, .between, 38, 39, 0, [(38, .space), (0, .declaration declarationBody)]⟩ :
      Lexer).Scans documentType s ∧ s.IsBeforeRoot false typeDefinitions :=
  ⟨_, by unfold Lexer.Scans; rfl, ⟨rfl, rfl, .inr rfl, fun _ => rfl⟩⟩

/-! ## The root element -/

def rootName : Text := "plist".toList

def rootAttributes : List (Text × Text) := [("version".toList, "1.0".toList)]

/-- The root element around a text. -/
def rootElement (inside : Text) : Text :=
  '<' :: rootName ++ writeAttributes rootAttributes ++ '>' :: inside ++
    '<' :: '/' :: (rootName ++ ['>'])

/-- What is written for a value is the root element with the value in it. -/
theorem writeMarkup_eq_ok {value : Value} {t : Text} (h : writeMarkup value = .ok t) :
    ∃ body, value.write 0 = .ok body ∧
      t = xmlDeclaration ++ documentType ++ rootElement (['\n'] ++ body) ++ ['\n'] := by
  obtain ⟨body, hbody, h⟩ := bind_eq_ok.1 h
  obtain rfl := Except.ok.inj h
  have hroot : "<plist version=\"1.0\">\n".toList =
      '<' :: rootName ++ writeAttributes rootAttributes ++ ['>', '\n'] := by decide
  have hhead : documentHead =
      xmlDeclaration ++ documentType ++ "<plist version=\"1.0\">\n".toList := by
    unfold documentHead xmlDeclaration documentType
    rw [String.toList_append, String.toList_append, String.toList_append]
    exact congrArg (· ++ _) (List.append_assoc _ _ _)
  have hend : "</plist>\n".toList = '<' :: '/' :: (rootName ++ ['>']) ++ ['\n'] := by decide
  exact ⟨body, hbody, by rw [hhead, hroot, hend]; simp [rootElement]⟩

theorem tellsElement_root {body : Text} {events : List Event}
    (hbody : ∀ bindings opened, opened ≠ [] → Tells false typeDefinitions
      ⟨bindings, opened, true⟩ ⟨bindings, opened, true⟩ body events) :
    TellsElement false typeDefinitions .initial [] (rootElement (['\n'] ++ body))
      (.opened ⟨[], rootName⟩ [(⟨[], "version".toList⟩, "1.0".toList)] ::
        ([.char '\n'] ++ events) ++ [.closed]) := by
  have hopens : OpensAs typeDefinitions .initial rootName rootAttributes .initial ⟨[], rootName⟩
      [(⟨[], "version".toList⟩, "1.0".toList)] :=
    ⟨rfl, by decide, rfl, rfl, rfl⟩
  have hopened : [(⟨rootName, .initial⟩ : OpenElement)] ≠ [] := List.cons_ne_nil _ _
  refine tellsElement (.plain (by decide)) (fun entry hentry => ?_) hopens
    ((tells_feed hopened).append (hbody _ _ hopened))
  rw [List.mem_singleton.1 hentry]
  exact ⟨.plain (by decide), by decide⟩

theorem cutOff_notMem_rootElement {inside : Text} (h : cutOff ∉ inside) :
    cutOff ∉ rootElement inside := by
  have hstart : cutOff ∉ '<' :: rootName ++ writeAttributes rootAttributes ++ ['>'] := by decide
  have hend : cutOff ∉ '<' :: '/' :: (rootName ++ ['>']) := by decide
  have heq : rootElement inside = '<' :: rootName ++ writeAttributes rootAttributes ++ ['>'] ++
      inside ++ '<' :: '/' :: (rootName ++ ['>']) := by
    simp [rootElement]
  rw [heq]
  exact List.not_mem_append (List.not_mem_append hstart h) hend

theorem takes_root {value : Value} {events : List Event}
    (hbody : (Draft.initial.within rootName).Takes events
      ((Draft.initial.within rootName).put value)) (attributes : List (Name × Text)) :
    Draft.initial.Takes (.opened ⟨[], rootName⟩ attributes :: ([.char '\n'] ++ events) ++ [.closed])
      (Draft.initial.put value) := by
  refine Draft.takes_element .initial (Draft.initial.put value)
    (fun _ _ _ => rfl) fun document list hlist => ?_
  obtain ⟨text, hfold⟩ :=
    ((Draft.takes_chars _ ['\n']).append hbody) document list [] hlist
  exact ⟨text, hfold, fun offset => ⟨text, rfl⟩⟩

/-! ## The file -/

theorem encode_append (t t' : Text) : Utf8.encode (t ++ t') = Utf8.encode t ++ Utf8.encode t' :=
  List.flatMap_append

/-- The declared encoding of a file behind the head is the one it is written in. -/
theorem ofBytes_encode (t : Text) :
    Decoded.ofBytes (Utf8.encode (xmlDeclaration ++ t)) =
      (.of (withoutMarks (xmlDeclaration ++ t)), none) := by
  have hopening : OpeningEncoding.of (Utf8.encode (xmlDeclaration ++ t)) = .utf8 := by
    rw [encode_append]
    rfl
  have hhead : withoutMarks (xmlDeclaration ++ t) = xmlDeclaration ++ withoutMarks t := by
    rw [withoutMarks_append, withoutMarks_of_notMem (t := xmlDeclaration) (by decide)]
  have hdecode : OpeningEncoding.utf8.decode (Utf8.encode (xmlDeclaration ++ t)) =
      xmlDeclaration ++ withoutMarks t := (decodeUtf8_encode _).trans hhead
  have hdeclared : declaredEncoding? (Decoded.of (xmlDeclaration ++ withoutMarks t)).tokens =
      some ("UTF-8".toList, 30) := by
    obtain ⟨more, hmore⟩ := Tokens.prefix_ofDocument scans_xmlDeclaration (withoutMarks t)
    have hlist : (Decoded.of (xmlDeclaration ++ withoutMarks t)).tokens.list =
        (0, .declaration declarationBody) :: (38, .space) :: more := hmore.symm
    rw [declaredEncoding?, hlist]
    rfl
  simp only [Decoded.ofBytes, hopening, hdecode, hdeclared, hhead]
  rfl

/-- A file that is read holds no forbidden character. -/
theorem isLegal_of_readMarkup {t : Text} {found : Option Value}
    (h : readMarkup (Utf8.encode (xmlDeclaration ++ t)) = .ok found) :
    IsLegal (xmlDeclaration ++ t) := by
  unfold readMarkup at h
  simp only [ofBytes_encode] at h
  obtain ⟨draft, -, h⟩ := bind_eq_ok.1 h
  split at h
  · cases h
  · next hfault =>
    exact isLegal_of_withoutMarks (Tokens.isLegal_of_ofDocument (Option.or_eq_none_iff.1 hfault).2)

/-- A file in markup is read as the value it was written for, with its line ends unified. -/
theorem readMarkup_writeMarkup {value : Value}
    (hsound : value.Every Value.IsSound) {t : Text}
    (h : writeMarkup value = .ok t) :
    readMarkup (Utf8.encode t) = .ok (some value.reread) := by
  obtain ⟨body, hbody, rfl⟩ := writeMarkup_eq_ok h
  have hreads := reads_write arePlain_typeDefinitions value hsound 0 hbody
    (d := Draft.initial.within rootName) fun _ _ => rfl
  obtain ⟨events, htells, htakes⟩ := hreads.told
  obtain ⟨s, hscan, hs⟩ := exists_scans_documentType
  obtain ⟨list, hevents, hlist⟩ := (tellsElement_root htells).ofDocument
    (scans_xmlDeclaration.append hscan) hs
  have hmark : cutOff ∉ xmlDeclaration ++ documentType ++ rootElement (['\n'] ++ body) ++ ['\n'] :=
    List.not_mem_append (List.not_mem_append (by decide)
      (cutOff_notMem_rootElement (List.not_mem_append (by decide) hreads.unmarked))) (by decide)
  have hdecoded : Decoded.ofBytes (Utf8.encode (xmlDeclaration ++ documentType ++
      rootElement (['\n'] ++ body) ++ ['\n'])) = (.of (xmlDeclaration ++ documentType ++
        rootElement (['\n'] ++ body) ++ ['\n']), none) := by
    simp only [List.append_assoc] at hmark ⊢
    rw [ofBytes_encode, withoutMarks_of_notMem hmark]
  generalize xmlDeclaration ++ documentType ++ rootElement (['\n'] ++ body) ++ ['\n'] = t at *
  have hevents' : Events.ofTokens false false (Decoded.of t).tokens = ⟨list, none⟩ := hevents
  obtain ⟨text, hfold⟩ := takes_root htakes _ t list [] hlist
  have hfold' : list.foldlM (Draft.take (Decoded.of t).text) .initial =
      .ok ((Draft.initial.put value.reread).withText text) := hfold
  simp only [readMarkup, hdecoded, hevents', hfold', ok_bind]
  rfl

/-- A file behind the head is known to be one in markup. -/
theorem isMarkup_encode (t : Text) :
    isBlankFile (Utf8.encode (xmlDeclaration ++ t)) = false ∧
      isMarkup (Utf8.encode (xmlDeclaration ++ t)) = true ∧
      isBinary (Utf8.encode (xmlDeclaration ++ t)) = false := by
  rw [encode_append]
  exact ⟨rfl, rfl, rfl⟩

/-- A dictionary that is written in markup is read again, with its line ends unified. -/
theorem Document.read_write_markup {entries : List (Text × Value)}
    (hsound : (Value.dictionary entries).Every Value.IsSound) {out : Bytes}
    (h : (Document.markup entries).write = .ok out) :
    Document.read out = .ok (.markup (rereadEntries [] entries)) ∧ isBlankFile out = false ∧
      isBinary out = false := by
  obtain ⟨t, ht, h⟩ := bind_eq_ok.1 h
  obtain rfl := Except.ok.inj h
  have hread := readMarkup_writeMarkup hsound ht
  obtain ⟨body, -, rfl⟩ := writeMarkup_eq_ok ht
  simp only [List.append_assoc] at hread ⊢
  obtain ⟨hblank, hmarkup, hbinary⟩ :=
    isMarkup_encode (documentType ++ (rootElement (['\n'] ++ body) ++ ['\n']))
  refine ⟨?_, hblank, hbinary⟩
  rw [Document.read, hblank, hmarkup, hread]
  rfl

end BundleHook.PropertyList
