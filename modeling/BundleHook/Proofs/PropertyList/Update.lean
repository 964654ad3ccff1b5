import BundleHook.Proofs.PropertyList.ArchiveFile
import BundleHook.Proofs.PropertyList.ArchiveSetting
import BundleHook.Proofs.PropertyList.MarkupFile
import BundleHook.Proofs.PropertyList.SoundValues

/-!
# Setting keys updates a dictionary

A property list of either kind holds a dictionary. The file with its keys set holds the dictionary
updated with the items, and is of the same kind; a file whose keys have their texts already is its
own result, so that setting keys settles.
-/

namespace BundleHook.PropertyList

/-! ## What a file holds -/

/-- A document holds the dictionary with these entries. -/
def Document.Holds : Document → List (Text × Value) → Prop
  | .markup known, entries => known = entries
  | .binary archive, entries => archive.Holds archive.top (.dictionary entries)

/-- A file holds the dictionary with these entries; a blank one holds the empty dictionary. -/
def Loads (octets : Bytes) (entries : List (Text × Value)) : Prop :=
  ∃ document, Document.read octets = .ok document ∧ document.Holds entries

variable {data out : Bytes} {entries entries' : List (Text × Value)} {items : Items}

theorem Document.Holds.unique {document : Document} (h : document.Holds entries)
    (h' : document.Holds entries') : entries = entries' := by
  cases document with
  | markup known => exact h.symm.trans h'
  | binary archive => exact Value.dictionary.inj (Archive.Holds.unique h h')

theorem Loads.unique (h : Loads data entries) (h' : Loads data entries') : entries = entries' := by
  obtain ⟨document, hread, hholds⟩ := h
  obtain ⟨document', hread', hholds'⟩ := h'
  obtain rfl := Except.ok.inj (hread.symm.trans hread')
  exact hholds.unique hholds'

theorem Document.Holds.hasAll {document : Document} (h : document.Holds entries) (items : Items) :
    document.hasAll items = PropertyList.hasAll entries items := by
  cases document with
  | markup known => rw [Document.hasAll, show known = entries from h]
  | binary archive => exact Archive.Holds.hasAll h items

/-! ## Kinds of files -/

theorem isBinary_iff : isBinary data = true ↔ ∃ rest, Archive.signature ++ rest = data :=
  List.isPrefixOf_iff_prefix

theorem not_markup_of_isBinary (h : isBinary data = true) :
    isBlankFile data = false ∧ isMarkup data = false := by
  obtain ⟨rest, rfl⟩ := isBinary_iff.1 h
  exact ⟨rfl, rfl⟩

theorem Document.read_of_isBinary (h : isBinary data = true) :
    Document.read data =
      match Archive.read data with
      | none => .error (.flaw .invalid)
      | some archive =>
        if archive.entries?.isSome then .ok (.binary archive) else .error (.flaw .notDictionary) := by
  obtain ⟨hblank, hmarkup⟩ := not_markup_of_isBinary h
  rw [Document.read, hblank, hmarkup, h]
  rfl

theorem Document.isBinary_of_read {document : Document} (h : Document.read data = .ok document) :
    (∃ entries, document = .markup entries ∧ isBinary data = false) ∨
      ∃ archive, document = .binary archive ∧ isBinary data = true ∧
        Archive.read data = some archive := by
  by_cases hbinary : isBinary data = true
  · rw [read_of_isBinary hbinary] at h
    split at h
    · cases h
    · next archive hread =>
      split at h
      · exact .inr ⟨archive, (Except.ok.inj h).symm, hbinary, hread⟩
      · cases h
  · refine .inl ?_
    unfold Document.read at h
    split_ifs at h
    · exact ⟨[], (Except.ok.inj h).symm, by simpa using hbinary⟩
    · obtain ⟨found, -, h⟩ := bind_eq_ok.1 h
      split at h
      · exact ⟨_, (Except.ok.inj h).symm, by simpa using hbinary⟩
      · cases h

/-! ## Plain values -/

/-- What the parts of a plain value are: no numbers with fractions, no dates, and no texts with
carriage returns or the code points that stand for unreadable octets. -/
def Value.IsPlain : Value → Prop
  | .text t => '\r' ∉ t ∧ HasNoMark t
  | .real _ | .date _ => False
  | _ => True

theorem Value.IsPlain.isSteady {value : Value} (h : value.IsPlain) : value.IsSteady := by
  cases value <;> simp_all [IsPlain, IsSteady]

theorem every_setAll {P : Value → Prop} (h : (Value.dictionary entries).Every P)
    (hitems : ∀ item ∈ items, P (.text item.1) ∧ P (.text item.2))
    (hdictionary : P (.dictionary (setAll entries items))) :
    (Value.dictionary (setAll entries items)).Every P := by
  refine every_dictionary.2 ⟨hdictionary, fun entry hentry => ?_⟩
  rcases mem_setAll hentry with hold | ⟨item, hitem, rfl⟩
  · exact (every_dictionary.1 h).2 entry hold
  · refine ⟨(hitems item hitem).1, fun part hpart => ?_⟩
    cases hpart
    exact (hitems item hitem).2

/-! ## Written documents -/

/-- A written document is read again, and holds the updated dictionary. -/
theorem loads_write {document : Document} (hread : Document.read data = .ok document)
    (hholds : document.Holds entries) (hplain : (Value.dictionary entries).Every Value.IsPlain)
    (hitems : ∀ item ∈ items, (Value.text item.1).IsPlain ∧ (Value.text item.2).IsPlain)
    (h : (document.setAll items).write = .ok out) :
    Loads out (setAll entries items) ∧ isBlankFile out = false ∧ isBinary out = isBinary data := by
  rcases Document.isBinary_of_read hread with ⟨known, rfl, hbinary⟩ | ⟨archive, rfl, hbinary, ha⟩
  · obtain rfl : known = entries := hholds
    have hsound := Document.read_markup_sound hread
    have hsound' : (Value.dictionary (setAll known items)).Every Value.IsSound :=
      every_setAll hsound (fun item hitem => ⟨(hitems item hitem).1.2, (hitems item hitem).2.2⟩)
        (nodup_setAll (every_dictionary.1 hsound).1 items)
    have hsteady : (Value.dictionary (setAll known items)).Every Value.IsSteady :=
      every_setAll (fun part hpart => (hplain part hpart).isSteady)
        (fun item hitem => ⟨(hitems item hitem).1.isSteady, (hitems item hitem).2.isSteady⟩) trivial
    obtain ⟨hwritten, hblank, hkind⟩ := Document.read_write_markup hsound' h
    refine ⟨⟨_, hwritten, ?_⟩, hblank, hkind.trans hbinary.symm⟩
    exact Value.dictionary.inj (reread_eq_self _ hsound' hsteady)
  · have hdistinct := Archive.every_hasDistinctKeys_of_read ha hholds
    have hnodup := (every_dictionary.1 hdistinct).1
    obtain ⟨written, hwritten, hholds'⟩ := Archive.read_write
      (Archive.Holds.setAll hholds hnodup items)
      (every_setAll hdistinct (fun _ _ => ⟨trivial, trivial⟩) (nodup_setAll hnodup items)) h
    have hkind : isBinary out = true := by
      obtain ⟨-, parts, -, -, rfl⟩ := Archive.write_eq_ok h
      simp only [Archive.file, List.append_assoc]
      exact isBinary_iff.2 ⟨_, rfl⟩
    obtain ⟨refs, hrefs, -⟩ := Archive.holds_dictionary.1 hholds'
    have hentries : written.entries?.isSome := by rw [Archive.entries?_eq_some.2 hrefs]; rfl
    refine ⟨⟨.binary written, ?_, hholds'⟩, (not_markup_of_isBinary hkind).1,
      hkind.trans hbinary.symm⟩
    rw [Document.read_of_isBinary hkind, hwritten]
    exact if_pos hentries

/-! ## Files -/

theorem upsert_of_read {document : Document} (h : Document.read data = .ok document) :
    upsert data items =
      if !isBlankFile data && document.hasAll items then .ok data
      else (document.setAll items).write.mapError Problem.breakdown := by
  rw [upsert, h]
  rfl

/-- A binary file with one entry, of two objects beside the dictionary. -/
def smallFile : Bytes := Archive.file 1 [[0xD1, 1, 2], [0x51, 0x61], [0x51, 0x62]]

/-- The file that is written for it with one key set anew and another one added. -/
def smallUpdate : Bytes := Archive.file 1
  [[0xD2, 1, 2, 3, 4], [0x51, 0x61], [0x51, 0x64], [0x51, 0x63], [0x51, 0x65]]

end BundleHook.PropertyList
