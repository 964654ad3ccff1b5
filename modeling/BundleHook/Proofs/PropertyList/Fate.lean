import BundleHook.Proofs.PropertyList.Settling

/-!
# What keeps a property list from being written

Whether a property list with a key set can be written, and what it breaks down with otherwise, does
not depend on the text that the key is set to, as long as this text can be written and the file does
not get too long for its offsets.

* `fate_writeEntries` — property lists in markup;
* `Archive.SameButTexts.fate_write` — binary ones;
* `fate_upsert`, `upsert_ne_self` — files.
-/

namespace BundleHook.PropertyList

open Markup

/-! ## Markup -/

/-- The same key with values of one fate. -/
def AlikeEntry (entry other : Text × Value) : Prop :=
  entry.1 = other.1 ∧ ∀ level, fate (entry.2.write level) = fate (other.2.write level)

theorem fate_write_text (level : Nat) (t : Text) :
    fate (Value.write level (.text t)) = fate (escapeText t) := by
  rw [Value.write]
  cases escapeText t <;> rfl

theorem alikeEntry_text (key : Text) {t u : Text} (ht : (Value.text t).IsWritable)
    (hu : (Value.text u).IsWritable) : AlikeEntry (key, .text t) (key, .text u) := by
  obtain ⟨written, hwritten⟩ := exists_escapeText_iff.2 ht
  obtain ⟨written', hwritten'⟩ := exists_escapeText_iff.2 hu
  refine ⟨rfl, fun level => ?_⟩
  rw [fate_write_text, fate_write_text, hwritten, hwritten']
  rfl

theorem forall₂_alikeEntry_refl (entries : List (Text × Value)) :
    List.Forall₂ AlikeEntry entries entries :=
  List.forall₂_same.2 fun _ _ => ⟨rfl, fun _ => rfl⟩

theorem forall₂_setEntry (entries : List (Text × Value)) {key : Text} {value other : Value}
    (h : AlikeEntry (key, value) (key, other)) :
    List.Forall₂ AlikeEntry (setEntry key value entries) (setEntry key other entries) := by
  induction entries with
  | nil => exact .cons h .nil
  | cons entry entries ih =>
      obtain ⟨known, old⟩ := entry
      simp only [setEntry]
      split
      · exact .cons h (forall₂_alikeEntry_refl entries)
      · exact .cons ⟨rfl, fun _ => rfl⟩ ih

theorem fate_writeEntries {level : Nat} {entries others : List (Text × Value)}
    (h : List.Forall₂ AlikeEntry entries others) :
    fate (writeEntries level entries) = fate (writeEntries level others) := by
  induction h with
  | nil => rfl
  | @cons entry other entries others halike _ ih =>
      obtain ⟨key, value⟩ := entry
      obtain ⟨key', value'⟩ := other
      obtain ⟨rfl, hvalue⟩ : key = key' ∧ _ := halike
      simp only [writeEntries]
      refine fate_bind_congr rfl fun _ _ => fate_bind_congr (hvalue level) fun _ _ => ?_
      exact fate_bind_congr ih fun _ _ => rfl

theorem fate_writeMarkup {entries others : List (Text × Value)}
    (h : List.Forall₂ AlikeEntry entries others) :
    fate (writeMarkup (.dictionary entries)) = fate (writeMarkup (.dictionary others)) := by
  refine fate_bind_congr ?_ fun _ _ => by rw [fate_pure, fate_pure]
  cases h with
  | nil => rfl
  | cons halike hothers =>
      simp only [Value.write]
      exact fate_bind_congr (fate_writeEntries (.cons halike hothers)) fun _ _ => rfl

/-! ## Binary files -/

namespace Archive

variable {a b : Archive}

/-- An entry for the same object, or for another text in the place of a text. -/
def SameButText (entry other : Nat × BinaryObject) : Prop :=
  entry.1 = other.1 ∧
    (entry.2 = other.2 ∨ ∃ t u, entry.2 = .text t ∧ other.2 = .text u)

/-- The same objects in the same places, but for texts in the places of texts. -/
structure SameButTexts (a b : Archive) : Prop where
  top : a.top = b.top
  objects : List.Forall₂ SameButText a.objects b.objects

theorem forall₂_sameButText_refl (objects : List (Nat × BinaryObject)) :
    List.Forall₂ SameButText objects objects :=
  List.forall₂_same.2 fun _ _ => ⟨rfl, .inl rfl⟩

/-- Setting a key to different texts makes the same archive but for texts. -/
theorem sameButTexts_set (a : Archive) (key t u : Text) :
    SameButTexts (a.set key t) (a.set key u) := by
  unfold Archive.set
  split
  · exact ⟨rfl, forall₂_sameButText_refl a.objects⟩
  · refine ⟨rfl, List.rel_append (forall₂_sameButText_refl _) (.cons ⟨rfl, .inr ⟨t, u, rfl, rfl⟩⟩ ?_)⟩
    exact forall₂_sameButText_refl _

namespace SameButTexts

variable (h : SameButTexts a b)

include h

theorem object?_cases (ref : Nat) :
    a.object? ref = b.object? ref ∨
      ∃ t u, a.object? ref = some (.text t) ∧ b.object? ref = some (.text u) := by
  obtain ⟨objects, top⟩ := a
  obtain ⟨others, top'⟩ := b
  obtain ⟨-, hobjects⟩ := h
  simp only [object?] at hobjects ⊢
  induction hobjects with
  | nil => exact .inl rfl
  | @cons entry other objects others hentry _ ih =>
      obtain ⟨known, object⟩ := entry
      obtain ⟨known', object'⟩ := other
      obtain ⟨rfl, hobject⟩ : known = known' ∧ _ := hentry
      rw [List.lookup_cons, List.lookup_cons]
      cases ref == known with
      | false => exact ih
      | true =>
          rcases hobject with rfl | ⟨t, u, rfl, rfl⟩
          · exact .inl rfl
          · exact .inr ⟨t, u, rfl, rfl⟩

theorem isNone_text? (ref : Nat) : (a.text? ref).isNone = (b.text? ref).isNone := by
  unfold text?
  rcases h.object?_cases ref with heq | ⟨t, u, ht, hu⟩
  · rw [heq]
  · rw [ht, hu]
    rfl

end SameButTexts

/-! ### Objects other than texts -/

/-- The entry is for an object other than a text. -/
def isOther (entry : Identity × BinaryObject) : Bool := entry.2.text?.isNone

/-- Texts are known by what they are. -/
def KnowsTexts (met : List (Identity × BinaryObject)) : Prop :=
  ∀ identity t, (identity, BinaryObject.text t) ∈ met → identity = .value (.text t)

theorem eq_text_of_text? {object : BinaryObject} {t : Text} (h : object.text? = some t) :
    object = .text t := by
  cases object with
  | text value =>
      obtain rfl := Option.some.inj h
      rfl
  | _ => cases h

theorem knowsTexts_nil : KnowsTexts [] := fun _ _ h => absurd h List.not_mem_nil

/-- Nothing but a text is known as one. -/
theorem identityOf_ne_text {ref : Nat} {object : BinaryObject} (h : object.text? = none) (t : Text) :
    identityOf ref object ≠ .value (.text t) := by
  rcases identityOf_cases ref object with hplace | hvalue | ⟨x, -, hzero⟩
  · rw [hplace]
    nofun
  · rw [hvalue]
    rintro heq
    rw [Identity.value.inj heq] at h
    cases h
  · rw [hzero]
    nofun

/-- Whether an object other than a text has been met is seen without the texts. -/
theorem any_isOther {met : List (Identity × BinaryObject)} (hmet : KnowsTexts met)
    {identity : Identity} (hidentity : ∀ t, identity ≠ .value (.text t)) :
    met.any (·.1 = identity) = (met.filter isOther).any (·.1 = identity) := by
  rw [List.any_filter, Bool.eq_iff_iff, List.any_eq_true, List.any_eq_true]
  refine exists_congr fun entry => and_congr_right fun hentry => ?_
  rw [Bool.and_eq_true, decide_eq_true_eq, iff_and_self]
  rintro rfl
  rcases htext : entry.2.text? with _ | t
  · simp [isOther, htext]
  · obtain ⟨known, object⟩ := entry
    obtain rfl : object = .text t := eq_text_of_text? htext
    exact absurd (hmet known t hentry) (hidentity t)

/-- A text is skipped or met, and has no parts. -/
theorem laidOut_text {ref : Nat} {t : Text} (hobject : a.object? ref = some (.text t))
    {met : List (Identity × BinaryObject)} (hmet : KnowsTexts met) (steps : Nat)
    (others : List Nat) :
    ∃ met', a.laidOut (steps + 1) met (ref :: others) = a.laidOut steps met' others ∧
      KnowsTexts met' ∧ met'.filter isOther = met.filter isOther := by
  have hidentity : a.identity ref = .value (.text t) := by
    rw [identity, hobject]
    rfl
  rw [laidOut, hobject]
  split
  · exact ⟨met, rfl, hmet, rfl⟩
  · refine ⟨_, rfl, fun known u hmem => ?_, by simp [isOther, BinaryObject.text?]⟩
    rcases List.mem_append.1 hmem with hmem | hmem
    · exact hmet known u hmem
    · obtain ⟨rfl, hsame⟩ := Prod.mk.inj (List.mem_singleton.1 hmem)
      rw [hidentity, hsame]

/-- An object other than a text is met or skipped, as it is known or not, and its parts follow. -/
theorem laidOut_other {ref : Nat} {object : BinaryObject} (hobject : a.object? ref = some object)
    (hother : object.text? = none) {met : List (Identity × BinaryObject)} (hmet : KnowsTexts met)
    (steps : Nat) (others : List Nat) :
    a.laidOut (steps + 1) met (ref :: others) =
      if (met.filter isOther).any (·.1 = identityOf ref object) then a.laidOut steps met others
      else a.laidOut steps (met ++ [(identityOf ref object, object)]) (object.parts ++ others) := by
  have hidentity : a.identity ref = identityOf ref object := by
    rw [identity, hobject]
  simp only [laidOut, hobject, hidentity]
  rw [any_isOther hmet (identityOf_ne_text hother)]

/-- A reference to nothing is skipped. -/
theorem laidOut_none {ref : Nat} (hobject : a.object? ref = none)
    (met : List (Identity × BinaryObject)) (steps : Nat) (others : List Nat) :
    a.laidOut (steps + 1) met (ref :: others) = a.laidOut steps met others := by
  rw [laidOut, hobject]
  exact ite_self _

theorem knowsTexts_append {met : List (Identity × BinaryObject)} (hmet : KnowsTexts met)
    {identity : Identity} {object : BinaryObject} (hother : object.text? = none) :
    KnowsTexts (met ++ [(identity, object)]) := by
  intro known t hmem
  rcases List.mem_append.1 hmem with hmem | hmem
  · exact hmet known t hmem
  · obtain ⟨-, rfl⟩ := Prod.mk.inj (List.mem_singleton.1 hmem)
    cases hother

/-- Apart from texts, the same objects are laid out in the same order. -/
theorem SameButTexts.filter_laidOut (h : SameButTexts a b) (steps : Nat)
    {met met' : List (Identity × BinaryObject)} (hmet : KnowsTexts met) (hmet' : KnowsTexts met')
    (hsame : met.filter isOther = met'.filter isOther) (refs : List Nat) :
    (a.laidOut steps met refs).filter isOther = (b.laidOut steps met' refs).filter isOther := by
  induction steps generalizing met met' refs with
  | zero => exact hsame
  | succ steps ih =>
      cases refs with
      | nil => exact hsame
      | cons ref others =>
          rcases h.object?_cases ref with hobject | ⟨t, u, ht, hu⟩
          · rcases hfound : a.object? ref with _ | object
            · rw [laidOut_none hfound, laidOut_none (hobject ▸ hfound)]
              exact ih hmet hmet' hsame others
            rcases htext : object.text? with _ | t
            · rw [laidOut_other hfound htext hmet, laidOut_other (hobject ▸ hfound) htext hmet', hsame]
              split
              · exact ih hmet hmet' hsame others
              · refine ih (knowsTexts_append hmet htext) (knowsTexts_append hmet' htext) ?_ _
                rw [List.filter_append, List.filter_append, hsame]
            · obtain rfl := eq_text_of_text? htext
              obtain ⟨next, hnext, hknows, hfilter⟩ := laidOut_text hfound hmet steps others
              obtain ⟨next', hnext', hknows', hfilter'⟩ :=
                laidOut_text (hobject ▸ hfound) hmet' steps others
              rw [hnext, hnext']
              exact ih hknows hknows' (by rw [hfilter, hfilter', hsame]) others
          · obtain ⟨next, hnext, hknows, hfilter⟩ := laidOut_text ht hmet steps others
            obtain ⟨next', hnext', hknows', hfilter'⟩ := laidOut_text hu hmet' steps others
            rw [hnext, hnext']
            exact ih hknows hknows' (by rw [hfilter, hfilter', hsame]) others

theorem SameButTexts.filter_layout (h : SameButTexts a b) :
    a.layout.filter isOther = b.layout.filter isOther := by
  have hsteps {objects others : List (Nat × BinaryObject)}
      (hobjects : List.Forall₂ SameButText objects others) (n : Nat) :
      objects.foldl (fun n entry => n + entry.2.parts.length) n =
        others.foldl (fun n entry => n + entry.2.parts.length) n := by
    induction hobjects generalizing n with
    | nil => rfl
    | @cons entry other objects others hentry _ ih =>
        have hparts : entry.2.parts.length = other.2.parts.length := by
          rcases hentry.2 with heq | ⟨t, u, ht, hu⟩
          · rw [heq]
          · rw [ht, hu]
            rfl
        rw [List.foldl_cons, List.foldl_cons]
        simp only [hparts]
        exact ih _
  have hlayout (a : Archive) : a.layout =
      a.laidOut (a.objects.foldl (fun n entry => n + entry.2.parts.length) 1) [] [a.top] := rfl
  rw [hlayout, hlayout, hsteps h.objects, h.top]
  exact h.filter_laidOut _ knowsTexts_nil knowsTexts_nil rfl _

/-! ### Written archives -/

/-- What an object breaks down with. -/
def breakdown? (object : BinaryObject) : Option Breakdown :=
  match object with
  | .integer n => if (BinaryObject.integerOctets n).isNone then some (.integerRange n) else none
  | _ => none

theorem write_cases (width : Nat) (number : Nat → Nat) (object : BinaryObject) :
    (∃ octets, object.write width number = some octets ∧ breakdown? object = none) ∨
      object.write width number = none ∧
        breakdown? object = some (.integerRange (integerOf object)) := by
  cases object with
  | integer n =>
      simp only [BinaryObject.write, breakdown?, integerOf]
      rcases BinaryObject.integerOctets n with _ | octets
      · exact .inr ⟨rfl, rfl⟩
      · exact .inl ⟨octets, rfl, rfl⟩
  | flag b => cases b <;> exact .inl ⟨_, rfl, rfl⟩
  | _ => exact .inl ⟨_, rfl, rfl⟩

/-- The first object that cannot be written is what objects break down with. -/
theorem fate_writeAll (width : Nat) (number : Nat → Nat) (objects : List BinaryObject) :
    fate (writeAll width number objects) =
      ((objects.findSome? breakdown?).elim (.ok ()) .error) := by
  induction objects with
  | nil => rfl
  | cons object objects ih =>
      rw [writeAll, List.findSome?_cons]
      rcases write_cases width number object with ⟨octets, hwrite, hnone⟩ | ⟨hwrite, hsome⟩
      · rw [hwrite, hnone, ← ih]
        cases writeAll width number objects <;> rfl
      · rw [hwrite, hsome]
        rfl

/-- The offsets of the archive have at most eight octets when it is written. -/
def HasRoom (a : Archive) : Prop :=
  ∀ parts, writeAll a.referenceWidth a.numberIn (a.layout.map (·.2)) = .ok parts →
    tableOffset parts < 2 ^ 64

theorem map_filter_isOther (entries : List (Identity × BinaryObject)) :
    (entries.filter isOther).map (·.2) = (entries.map (·.2)).filter (·.text?.isNone) := by
  rw [List.filter_map]
  rfl

/-- What breaks down is found without the texts. -/
theorem findSome?_breakdown? (objects : List BinaryObject) :
    (objects.filter (·.text?.isNone)).findSome? breakdown? = objects.findSome? breakdown? := by
  induction objects with
  | nil => rfl
  | cons object objects ih =>
      rw [List.filter_cons, List.findSome?_cons, ← ih]
      cases object <;> rfl

theorem hasForeignKey_filter (objects : List BinaryObject) :
    a.hasForeignKey (objects.filter (·.text?.isNone)) = a.hasForeignKey objects := by
  unfold hasForeignKey
  rw [List.any_filter]
  refine congrArg (objects.any ·) (funext fun object => ?_)
  cases object <;> rfl

theorem SameButTexts.hasForeignKey (h : SameButTexts a b) (objects : List BinaryObject) :
    a.hasForeignKey objects = b.hasForeignKey objects := by
  unfold Archive.hasForeignKey
  simp only [h.isNone_text?]

/-- An archive with room breaks down with a key that is no text, or else with its first object that
cannot be written. -/
theorem HasRoom.fate_write (hroom : a.HasRoom) :
    fate a.write =
      if a.hasForeignKey (a.layout.map (·.2)) then .error .keyNotText
      else ((a.layout.map (·.2)).findSome? breakdown?).elim (.ok ()) .error := by
  unfold write
  simp only [List.length_map]
  split
  · rfl
  · refine (fate_bind_of_ok fun parts hparts => ?_).trans (fate_writeAll _ _ _)
    have hfits : ¬1 <<< 64 ≤ signature.length + parts.flatten.length :=
      Nat.not_le.2 (hroom parts hparts)
    rw [if_neg hfits]
    rfl

/-- Archives with the same objects but for texts are written or break down alike. -/
theorem SameButTexts.fate_write (h : SameButTexts a b) (ha : a.HasRoom) (hb : b.HasRoom) :
    fate a.write = fate b.write := by
  have hobjects := congrArg (List.map (·.2)) h.filter_layout
  rw [map_filter_isOther, map_filter_isOther] at hobjects
  rw [ha.fate_write, hb.fate_write, ← findSome?_breakdown? (a.layout.map (·.2)),
    ← findSome?_breakdown? (b.layout.map (·.2)), ← hasForeignKey_filter (a.layout.map (·.2)),
    ← hasForeignKey_filter (b.layout.map (·.2)), hobjects, h.hasForeignKey]

end Archive

/-! ## Files -/

/-- What is written of the document has offsets of at most eight octets. -/
def Document.HasRoom : Document → Prop
  | .markup _ => True
  | .binary archive => archive.HasRoom

variable {data out : Bytes} {items : Items} {key t u : Text}

theorem hasAll_append (document : Document) (items others : Items) :
    document.hasAll (items ++ others) = (document.hasAll items && document.hasAll others) := by
  cases document with
  | markup entries => exact List.all_append
  | binary archive => exact List.all_append

/-- A document with a last key set to one text or another is written or breaks down alike. -/
theorem fate_write_setAll (document : Document) (ht : (Value.text t).IsWritable)
    (hu : (Value.text u).IsWritable)
    (hroomt : (document.setAll (items ++ [(key, t)])).HasRoom)
    (hroomu : (document.setAll (items ++ [(key, u)])).HasRoom) :
    fate (document.setAll (items ++ [(key, t)])).write =
      fate (document.setAll (items ++ [(key, u)])).write := by
  cases document with
  | markup entries =>
      simp only [Document.setAll, setAll, List.foldl_append, List.foldl_cons, List.foldl_nil,
        Document.write]
      refine fate_bind_congr (fate_writeMarkup ?_) fun _ _ => by rw [fate_pure, fate_pure]
      exact forall₂_setEntry _ (alikeEntry_text key ht hu)
  | binary archive =>
      simp only [Document.setAll, Archive.setAll, List.foldl_append, List.foldl_cons,
        List.foldl_nil, Document.HasRoom] at hroomt hroomu ⊢
      exact (Archive.sameButTexts_set _ key t u).fate_write hroomt hroomu

/-- Setting a last key to one text or another that it does not have goes through or fails alike. -/
theorem fate_upsert (ht : (Value.text t).IsWritable) (hu : (Value.text u).IsWritable)
    (hnew : ∀ document, Document.read data = .ok document →
      document.hasAll [(key, t)] = false ∧ document.hasAll [(key, u)] = false ∧
        (document.setAll (items ++ [(key, t)])).HasRoom ∧
        (document.setAll (items ++ [(key, u)])).HasRoom) :
    fate (upsert data (items ++ [(key, t)])) = fate (upsert data (items ++ [(key, u)])) := by
  rcases hread : Document.read data with problem | document
  · rw [upsert, upsert, hread]
    rfl
  · obtain ⟨hnott, hnotu, hroomt, hroomu⟩ := hnew document hread
    rw [upsert_of_read hread, upsert_of_read hread, hasAll_append, hasAll_append, hnott, hnotu,
      Bool.and_false, Bool.and_false, if_neg Bool.false_ne_true, if_neg Bool.false_ne_true,
      fate_mapError, fate_mapError, fate_write_setAll document ht hu hroomt hroomu]

theorem hasAll_of_mem {document : Document} (h : document.hasAll items = true)
    {item : Text × Text} (hitem : item ∈ items) : document.hasAll [item] = true := by
  obtain ⟨before, after, rfl⟩ := List.append_of_mem hitem
  rw [← List.singleton_append, hasAll_append, hasAll_append, Bool.and_eq_true, Bool.and_eq_true] at h
  exact h.2.1

/-- A file in which a key has another text is not its own result. -/
theorem upsert_ne_self (hitems : HasPlainKeys items) {item : Text × Text} (hitem : item ∈ items)
    (hreturn : '\r' ∉ item.2) {document : Document} (hread : Document.read data = .ok document)
    (hmissing : document.hasAll [item] = false) (h : upsert data items = .ok out) : out ≠ data := by
  rintro rfl
  suffices hall : document.hasAll [item] = true by
    rw [hmissing] at hall
    cases hall
  obtain ⟨document', hread', hresult⟩ := upsert_eq_ok h
  obtain rfl := Except.ok.inj (hread.symm.trans hread')
  rcases hresult with ⟨-, -, hall⟩ | hwrite
  · exact hasAll_of_mem hall hitem
  rcases document with known | archive
  · -- What is read holds no mark, so that what is written for it is what is read again.
    have hsound := Document.read_markup_sound hread
    obtain ⟨hagain, -, -⟩ := Document.read_write_markup (every_isSound_setAll hsound fun other hother =>
      hasNoMark_of_read (mem_setAll_of_mem hitems.nodup hother) hwrite hread) hwrite
    have hknown : known = rereadEntries [] (setAll known items) :=
      Document.markup.inj (Except.ok.inj (hread.symm.trans hagain))
    rw [Document.hasAll, hasAll_iff_forall, hknown, List.forall_mem_singleton,
      lookup_rereadEntries (hitems.lines item hitem) [] _
        (nodup_setAll (every_dictionary.1 hsound).1 items),
      lookup_setAll hitems.nodup, lookup_of_mem hitems.nodup hitem]
    show some (Value.text (Text.unifyLines item.2)) = _
    rw [unifyLines_of_notMem hreturn]
  · obtain ⟨-, document, hagain, hall⟩ := Document.read_write_binary hitems.nodup hread hwrite
    obtain rfl := Except.ok.inj (hread.symm.trans hagain)
    exact hasAll_of_mem hall hitem

end BundleHook.PropertyList
