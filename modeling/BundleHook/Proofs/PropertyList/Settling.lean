import BundleHook.Proofs.PropertyList.ArchiveClosure
import BundleHook.Proofs.PropertyList.Update
import BundleHook.Proofs.PropertyList.Writable

/-!
# Setting keys again

A property list with keys set, whatever else is in it, can be read and its keys set again, unless it
is markup and a text holds one of the two code points that no document may hold. When no text holds
a carriage return either, the file is its own result.

* `upsert_again_iff` — when the keys can be set again;
* `upsert_settles` — when that changes nothing.
-/

namespace BundleHook.PropertyList

open Markup

variable {data out : Bytes} {items : Items} {known : List (Text × Value)}

/-- Keys that occur once, each on one line. -/
structure HasPlainKeys (items : Items) : Prop where
  nodup : (items.map (·.1)).Nodup
  lines : ∀ item ∈ items, IsOneLine item.1

/-! ## Items in a dictionary -/

theorem mem_setAll_of_mem (hkeys : (items.map (·.1)).Nodup) {item : Text × Text}
    (hitem : item ∈ items) : (item.1, .text item.2) ∈ setAll known items := by
  refine mem_of_lookup ?_
  rw [lookup_setAll hkeys, lookup_of_mem hkeys hitem]
  rfl

/-- An item that is to be written can be written. -/
theorem isWritable_of_setAll (hkeys : (items.map (·.1)).Nodup)
    (h : (Value.dictionary (setAll known items)).Every Value.IsWritable) {item : Text × Text}
    (hitem : item ∈ items) :
    (Value.text item.1).IsWritable ∧ (Value.text item.2).IsWritable := by
  obtain ⟨hkey, hvalue⟩ := (every_dictionary.1 h).2 _ (mem_setAll_of_mem hkeys hitem)
  exact ⟨hkey, hvalue _ (.self _)⟩

theorem every_isSound_setAll (h : (Value.dictionary known).Every Value.IsSound)
    (hmarks : ∀ item ∈ items, HasNoMark item.1 ∧ HasNoMark item.2) :
    (Value.dictionary (setAll known items)).Every Value.IsSound :=
  every_setAll h hmarks (nodup_setAll (every_dictionary.1 h).1 items)

/-- A key of one line has its text again when this holds no carriage return. -/
theorem hasAll_rereadEntries (hitems : HasPlainKeys items) (hnodup : (known.map (·.1)).Nodup)
    (hreturn : ∀ item ∈ items, '\r' ∉ item.2) :
    hasAll (rereadEntries [] (setAll known items)) items = true := by
  refine hasAll_iff_forall.2 fun item hitem => ?_
  rw [lookup_rereadEntries (hitems.lines item hitem) [] _ (nodup_setAll hnodup items),
    lookup_setAll hitems.nodup, lookup_of_mem hitems.nodup hitem]
  show some (Value.text (Text.unifyLines item.2)) = _
  rw [unifyLines_of_notMem (hreturn item hitem)]

/-! ## Written texts -/

theorem mem_escape {c : Char} (hc : isForbidden c = true) {t : Text} (h : c ∈ t) :
    c ∈ (Text.unifyLines t).flatMap escape := by
  have hne {d : Char} (hd : isForbidden d = false) : c ≠ d := fun heq => by
    rw [heq, hd] at hc
    cases hc
  have hunified := mem_unifyLines_of_mem h
  rw [if_neg (hne (by decide))] at hunified
  refine List.mem_flatMap.2 ⟨c, hunified, ?_⟩
  rw [escape, if_neg (hne (by decide)), if_neg (hne (by decide)), if_neg (hne (by decide))]
  exact List.mem_singleton_self c

theorem mem_of_escapeText {c : Char} (hc : isForbidden c = true) {t written : Text}
    (h : escapeText t = .ok written) (hmem : c ∈ t) : c ∈ written := by
  unfold escapeText at h
  split at h
  · cases h
  · obtain rfl := Except.ok.inj h
    exact mem_escape hc hmem

theorem mem_leafLine {c : Char} {level : Nat} {name : String} {content : Text} (h : c ∈ content) :
    c ∈ leafLine level name content := by
  simp [leafLine, writtenLine, h]

/-- What an entry with a text holds is written out. -/
theorem mem_writeEntries {c : Char} (hc : isForbidden c = true) {key value : Text}
    (hmem : c ∈ key ∨ c ∈ value) {entries : List (Text × Value)}
    (hentry : (key, .text value) ∈ entries) {level : Nat} {written : Text}
    (h : writeEntries level entries = .ok written) : c ∈ written := by
  induction entries generalizing written with
  | nil => cases hentry
  | cons entry entries ih =>
      obtain ⟨known, held⟩ := entry
      simp only [writeEntries, bind_eq_ok] at h
      obtain ⟨writtenKey, hkey, writtenValue, hvalue, others, hothers, h⟩ := h
      obtain rfl := Except.ok.inj h
      rcases List.mem_cons.1 hentry with heq | hentry
      · obtain ⟨rfl, rfl⟩ := Prod.mk.inj heq
        obtain ⟨content, hcontent, hvalue⟩ := bind_eq_ok.1 hvalue
        obtain rfl := Except.ok.inj hvalue
        rcases hmem with hmem | hmem
        · exact List.mem_append_left _
            (List.mem_append_left _ (mem_leafLine (mem_of_escapeText hc hkey hmem)))
        · exact List.mem_append_left _
            (List.mem_append_right _ (mem_leafLine (mem_of_escapeText hc hcontent hmem)))
      · exact List.mem_append_right _ (ih hentry hothers)

theorem hasNoMark_of_isLegal {t : Text} (h : ∀ c ∈ t, isForbidden c = true → False) :
    HasNoMark t :=
  ⟨fun hc => h _ hc (by decide), fun hc => h _ hc (by decide)⟩

/-- A dictionary whose markup is read holds no text with a mark. -/
theorem hasNoMark_of_read {key value : Text} (hitem : (key, .text value) ∈ known)
    (h : (Document.markup known).write = .ok out) {document : Document}
    (hread : Document.read out = .ok document) : HasNoMark key ∧ HasNoMark value := by
  obtain ⟨t, ht, h⟩ := bind_eq_ok.1 h
  obtain rfl := Except.ok.inj h
  obtain ⟨body, hbody, rfl⟩ := writeMarkup_eq_ok ht
  simp only [List.append_assoc] at hread
  obtain ⟨hblank, hmarkup, -⟩ :=
    isMarkup_encode (documentType ++ (rootElement (['\n'] ++ body) ++ ['\n']))
  rw [Document.read, hblank, hmarkup] at hread
  obtain ⟨found, hfound, -⟩ := bind_eq_ok.1 hread
  have hlegal := isLegal_of_readMarkup hfound
  have hnone (c : Char) (hmem : c ∈ key ∨ c ∈ value) (hc : isForbidden c = true) : False := by
    have hwritten : c ∈ body := by
      obtain ⟨entry, entries, rfl⟩ := List.exists_cons_of_ne_nil (List.ne_nil_of_mem hitem)
      obtain ⟨inside, hinside, hbody⟩ := bind_eq_ok.1 hbody
      obtain rfl := Except.ok.inj hbody
      exact List.mem_append_left _
        (List.mem_append_right _ (mem_writeEntries hc hmem hitem hinside))
    have hbad := hlegal c (by simp [rootElement, hwritten])
    rw [hbad] at hc
    cases hc
  exact ⟨hasNoMark_of_isLegal fun c hc => hnone c (.inl hc),
    hasNoMark_of_isLegal fun c hc => hnone c (.inr hc)⟩

/-! ## Documents -/

/-- A binary file with keys set is read again, and has them set. -/
theorem Document.read_write_binary {archive : Archive} (hkeys : (items.map (·.1)).Nodup)
    (hread : Document.read data = .ok (.binary archive))
    (h : (archive.setAll items).write = .ok out) :
    isBlankFile out = false ∧ ∃ document, Document.read out = .ok document ∧
      document.hasAll items = true := by
  obtain ⟨_, hmarkup, -⟩ | ⟨archive', harchive, hbinary, hfile⟩ := Document.isBinary_of_read hread
  · cases hmarkup
  obtain rfl := Document.binary.inj harchive
  have hentries : archive.entries?.isSome = true := by
    rw [Document.read_of_isBinary hbinary, hfile] at hread
    by_contra hnone
    simp [hnone] at hread
  obtain ⟨written, hwritten, hentries', hall⟩ :=
    Archive.exists_read_setAll hfile hentries hkeys h
  have hkind : isBinary out = true := by
    obtain ⟨-, parts, -, -, rfl⟩ := Archive.write_eq_ok h
    simp only [Archive.file, List.append_assoc]
    exact isBinary_iff.2 ⟨_, rfl⟩
  refine ⟨(not_markup_of_isBinary hkind).1, .binary written, ?_, hall⟩
  rw [Document.read_of_isBinary hkind, hwritten]
  exact if_pos hentries'

/-! ## Files -/

theorem upsert_eq_ok (h : upsert data items = .ok out) :
    ∃ document, Document.read data = .ok document ∧
      (out = data ∧ isBlankFile data = false ∧ document.hasAll items = true ∨
        (document.setAll items).write = .ok out) := by
  obtain ⟨document, hread, h⟩ := bind_eq_ok.1 h
  refine ⟨document, hread, ?_⟩
  split at h
  · next hleft =>
    obtain ⟨hblank, hall⟩ := Bool.and_eq_true_iff.1 hleft
    exact .inl ⟨(Except.ok.inj h).symm, by simpa using hblank, hall⟩
  · exact .inr (mapError_eq_ok.1 h)

theorem upsert_of_hasAll {document : Document} (hblank : isBlankFile data = false)
    (hread : Document.read data = .ok document) (hall : document.hasAll items = true) :
    upsert data items = .ok data := by
  rw [upsert_of_read hread, hblank, hall]
  rfl

/-- A file with its keys set has them set when it is read again. -/
theorem hasAll_of_upsert (hitems : HasPlainKeys items)
    (htexts : isBinary data = true ∨
      ∀ item ∈ items, HasNoMark item.1 ∧ HasNoMark item.2 ∧ '\r' ∉ item.2)
    (h : upsert data items = .ok out) :
    isBlankFile out = false ∧ ∃ document, Document.read out = .ok document ∧
      document.hasAll items = true := by
  obtain ⟨document, hread, ⟨rfl, hblank, hall⟩ | hwrite⟩ := upsert_eq_ok h
  · exact ⟨hblank, document, hread, hall⟩
  rcases Document.isBinary_of_read hread with ⟨known, rfl, hbinary⟩ | ⟨archive, rfl, -, -⟩
  · have htexts := htexts.resolve_left (by simp [hbinary])
    have hsound := Document.read_markup_sound hread
    obtain ⟨hread', hblank, -⟩ := Document.read_write_markup
      (every_isSound_setAll hsound fun item hitem => ⟨(htexts item hitem).1, (htexts item hitem).2.1⟩)
      hwrite
    exact ⟨hblank, _, hread', hasAll_rereadEntries hitems (every_dictionary.1 hsound).1
      fun item hitem => (htexts item hitem).2.2⟩
  · exact Document.read_write_binary hitems.nodup hread hwrite

/-- Setting the keys again changes nothing. -/
theorem upsert_settles (hitems : HasPlainKeys items)
    (htexts : isBinary data = true ∨
      ∀ item ∈ items, HasNoMark item.1 ∧ HasNoMark item.2 ∧ '\r' ∉ item.2)
    (h : upsert data items = .ok out) : upsert out items = .ok out := by
  obtain ⟨hblank, document, hread, hall⟩ := hasAll_of_upsert hitems htexts h
  exact upsert_of_hasAll hblank hread hall

/-- The keys of a file with its keys set can be set again exactly when nothing has changed, or the
file is binary, or no text holds a mark. -/
theorem upsert_again_iff (hitems : HasPlainKeys items) (h : upsert data items = .ok out) :
    (∃ again, upsert out items = .ok again) ↔
      out = data ∨ isBinary data = true ∨
        ∀ item ∈ items, HasNoMark item.1 ∧ HasNoMark item.2 := by
  obtain ⟨document, hread, ⟨rfl, hblank, hall⟩ | hwrite⟩ := upsert_eq_ok h
  · exact iff_of_true ⟨out, h⟩ (.inl rfl)
  rcases Document.isBinary_of_read hread with ⟨known, rfl, hbinary⟩ | ⟨archive, rfl, hbinary, -⟩
  · constructor
    · rintro ⟨again, hagain⟩
      obtain ⟨document, hread', -⟩ := upsert_eq_ok hagain
      exact .inr (.inr fun item hitem =>
        hasNoMark_of_read (mem_setAll_of_mem hitems.nodup hitem) hwrite hread')
    · rintro (rfl | hbad | hmarks)
      · exact ⟨out, h⟩
      · rw [hbinary] at hbad
        cases hbad
      · have hsound := every_isSound_setAll (Document.read_markup_sound hread) hmarks
        obtain ⟨hread', hblank, -⟩ := Document.read_write_markup hsound hwrite
        have hwritable := exists_document_write_iff.1 ⟨out, hwrite⟩
        have hreread := every_isWritable_rereadEntries [] _
          (every_dictionary.2 ⟨trivial, List.forall_mem_nil _⟩)
          (every_dictionary.1 hwritable).2
        rw [upsert_of_read hread']
        split
        · exact ⟨out, rfl⟩
        · obtain ⟨again, hagain⟩ := exists_document_write_iff.2
            (every_setAll hreread (fun item hitem => isWritable_of_setAll hitems.nodup hwritable hitem)
              trivial)
          exact ⟨again, mapError_eq_ok.2 hagain⟩
  · exact iff_of_true ⟨out, upsert_settles hitems (.inl hbinary) h⟩ (.inr (.inl hbinary))

end BundleHook.PropertyList
