import BundleHook.Proofs.Markup.LegalEvents
import BundleHook.Proofs.Outcome
import BundleHook.Proofs.PropertyList.Rereading
import BundleHook.PropertyList.Update

/-!
# Sound values

A value that is read from markup is sound: its texts hold no mark of unreadable octets, its dates
pass their check, and no dictionary in it has a key twice.
-/

namespace BundleHook.PropertyList

open Markup

theorem ne_of_isForbidden {c : Char} (h : isForbidden c = false) : c ≠ cutOff ∧ c ≠ garbled := by
  constructor
  · rintro rfl
    exact absurd h (by decide)
  · rintro rfl
    exact absurd h (by decide)

theorem HasNoMark.reverse {t : Text} (h : HasNoMark t) : HasNoMark t.reverse :=
  ⟨fun hc => h.1 (List.mem_reverse.1 hc), fun hc => h.2 (List.mem_reverse.1 hc)⟩

theorem Date.check_eq_ok {d d' : Date} (h : d.check = .ok d') : d' = d := by
  unfold check at h
  split_ifs at h
  exact (Except.ok.inj h).symm

/-- A date that is read passes its check. -/
theorem Date.check_of_read {t : Text} {d : Date} (h : read t = .ok d) : d.check = .ok d := by
  unfold read at h
  split at h
  · cases h
  · split at h
    · split at h
      · obtain rfl := check_eq_ok h
        exact h
      · cases h
    · cases h

section Entries

variable {entries : List (Text × Value)} {key : Text} {value : Value}

theorem every_of_leaf {value : Value} (harray : ∀ items, value ≠ .array items)
    (hdictionary : ∀ entries, value ≠ .dictionary entries) (h : value.IsSound) :
    value.Every Value.IsSound := (every_leaf harray hdictionary).2 h

theorem every_nil_dictionary : (Value.dictionary []).Every Value.IsSound :=
  every_dictionary.2 ⟨List.nodup_nil, fun _ h => nomatch h⟩

/-- A dictionary stays sound when a key is set to a sound value. -/
theorem every_setEntry (h : (Value.dictionary entries).Every Value.IsSound) (hkey : HasNoMark key)
    (hvalue : value.Every Value.IsSound) :
    (Value.dictionary (setEntry key value entries)).Every Value.IsSound := by
  rw [every_dictionary] at h ⊢
  refine ⟨nodup_setEntry h.1 key value, fun entry hentry => ?_⟩
  rcases mem_setEntry hentry with hentry | rfl
  · exact h.2 entry hentry
  · exact ⟨hkey, hvalue⟩

end Entries

namespace Draft

/-- What a draft holds is sound. -/
structure IsSound (d : Draft) : Prop where
  containers : ∀ opened ∈ d.containers, (∀ key, opened.key = some key → HasNoMark key) ∧
    opened.container.closed.Every Value.IsSound
  key : ∀ key, d.key = some key → HasNoMark key
  text : HasNoMark d.text
  value : ∀ value, d.value = some value → value.Every Value.IsSound

variable {d d' : Draft} {document : Text} {offset : Nat}

theorem hasNoMark_nil : HasNoMark [] := ⟨List.not_mem_nil, List.not_mem_nil⟩

theorem isSound_initial : initial.IsSound := ⟨nofun, nofun, hasNoMark_nil, nofun⟩

theorem IsSound.withoutKey (h : d.IsSound) : ({ d with key := none } : Draft).IsSound :=
  ⟨h.containers, nofun, h.text, h.value⟩

theorem IsSound.withText (h : d.IsSound) {t : Text} (ht : HasNoMark t) :
    ({ d with text := t } : Draft).IsSound := ⟨h.containers, h.key, ht, h.value⟩

theorem IsSound.place (h : d.IsSound) {key : Option Text} {value : Value}
    (hkey : ∀ t, key = some t → HasNoMark t) (hvalue : value.Every Value.IsSound) :
    (d.place key value).IsSound := by
  unfold Draft.place
  split
  · next t outer entries others hcontainers =>
    have hall := h.containers
    rw [hcontainers, List.forall_mem_cons] at hall
    refine ⟨List.forall_mem_cons.2 ⟨⟨hall.1.1, ?_⟩, hall.2⟩, h.key, h.text, h.value⟩
    exact every_setEntry hall.1.2 (hkey t rfl) hvalue
  · next outer items others hcontainers =>
    have hall := h.containers
    rw [hcontainers, List.forall_mem_cons] at hall
    refine ⟨List.forall_mem_cons.2 ⟨⟨hall.1.1, ?_⟩, hall.2⟩, h.key, h.text, h.value⟩
    have hitems := (every_array.1 hall.1.2).2
    refine every_array.2 ⟨trivial, fun item hitem => ?_⟩
    rcases List.mem_cons.1 (List.mem_reverse.1 hitem) with rfl | hitem
    · exact hvalue
    · exact hitems item (List.mem_reverse.2 hitem)
  · exact h
  · refine ⟨h.containers, h.key, h.text, fun placed hplaced => ?_⟩
    obtain rfl := Option.some.inj hplaced
    exact hvalue

theorem IsSound.add (h : d.IsSound) {value : Value} (hvalue : value.Every Value.IsSound)
    (hadd : d.add document offset value = .ok d') : d'.IsSound := by
  obtain ⟨_, -, hadd⟩ := bind_eq_ok.1 hadd
  obtain rfl := Except.ok.inj hadd
  exact h.withoutKey.place h.key hvalue

theorem IsSound.openContainer (h : d.IsSound) {container : OpenContainer}
    (hcontainer : container.closed.Every Value.IsSound)
    (hopen : d.openContainer document offset container = .ok d') : d'.IsSound := by
  obtain ⟨_, -, hopen⟩ := bind_eq_ok.1 hopen
  obtain rfl := Except.ok.inj hopen
  exact ⟨List.forall_mem_cons.2 ⟨⟨h.key, hcontainer⟩, h.containers⟩, nofun, h.text, h.value⟩

theorem IsSound.closeContainer (h : d.IsSound) : d.closeContainer.IsSound := by
  unfold Draft.closeContainer
  split
  · exact h
  all_goals
    next hcontainers =>
    have hall := h.containers
    rw [hcontainers, List.forall_mem_cons] at hall
    refine IsSound.place ?_ hall.1.1 hall.1.2
    exact ⟨hall.2, h.key, h.text, h.value⟩

theorem IsSound.closeKey (h : d.IsSound) (hclose : d.closeKey document offset = .ok d') :
    d'.IsSound := by
  unfold Draft.closeKey at hclose
  simp only at hclose
  split at hclose
  · cases hclose
  · cases hclose
  · cases hclose
  · obtain rfl := Except.ok.inj hclose
    refine ⟨h.containers, fun key hkey => ?_, hasNoMark_nil, h.value⟩
    obtain rfl := Option.some.inj hkey
    exact h.text.reverse

theorem integerOf_eq_ok {t : Text} {value : Value} (h : integerOf t = .ok value) :
    ∃ n, value = .integer n := by
  unfold integerOf at h
  split at h <;> split at h <;> cases h <;> exact ⟨_, rfl⟩

/-- What an element writes in its text is sound. -/
theorem every_leaf? {element t : Text} (ht : HasNoMark t) {value : Value}
    (h : leaf? element t = some (.ok value)) : value.Every Value.IsSound := by
  unfold leaf? at h
  split_ifs at h
  · obtain ⟨n, rfl⟩ := integerOf_eq_ok (Option.some.inj h)
    exact every_of_leaf nofun nofun trivial
  · have h := Option.some.inj h
    split at h
    · obtain rfl := Except.ok.inj h
      exact every_of_leaf nofun nofun trivial
    · cases h
  · obtain rfl := Except.ok.inj (Option.some.inj h)
    exact every_of_leaf nofun nofun ht
  · have h := Option.some.inj h
    split at h
    · obtain rfl := Except.ok.inj h
      exact every_of_leaf nofun nofun trivial
    · cases h
  · have h := Option.some.inj h
    split at h
    · next hread =>
      obtain rfl := Except.ok.inj h
      exact every_of_leaf nofun nofun (Date.check_of_read hread)
    · cases h

theorem IsSound.closeElement (h : d.IsSound) {element : Text}
    (hclose : d.closeElement document offset element = .ok d') : d'.IsSound := by
  unfold Draft.closeElement at hclose
  split_ifs at hclose
  · split at hclose
    · cases hclose
    · obtain rfl := Except.ok.inj hclose
      exact h.closeContainer
  · obtain rfl := Except.ok.inj hclose
    exact h.closeContainer
  · exact h.closeKey hclose
  · split at hclose
    · refine h.add ?_ hclose
      exact every_of_leaf nofun nofun trivial
    · next hleaf =>
      obtain ⟨value, rfl, hadd⟩ := bind_eq_ok.1 hclose
      exact (h.withText hasNoMark_nil).add (every_leaf? h.text.reverse hleaf) hadd
    · obtain rfl := Except.ok.inj hclose
      exact h

/-- A draft stays sound with each event of legal characters. -/
theorem IsSound.take (h : d.IsSound) {entry : Nat × Event} (hentry : entry.2.IsLegal)
    (htake : d.take document entry = .ok d') : d'.IsSound := by
  obtain ⟨offset, event⟩ := entry
  unfold Draft.take at htake
  cases event with
  | opened name attributes =>
      have hopened : ({ d with text := [], elements := name.part :: d.elements } : Draft).IsSound :=
        ⟨h.containers, h.key, hasNoMark_nil, h.value⟩
      simp only at htake
      split_ifs at htake
      · refine hopened.openContainer ?_ htake
        exact every_nil_dictionary
      · refine hopened.openContainer ?_ htake
        exact every_array.2 ⟨trivial, fun _ h => nomatch h⟩
      · obtain rfl := Except.ok.inj htake
        exact hopened
  | closed =>
      simp only at htake
      split at htake
      · refine IsSound.closeElement ?_ htake
        exact ⟨h.containers, h.key, h.text, h.value⟩
      · obtain rfl := Except.ok.inj htake
        exact h
  | char c =>
      obtain rfl := Except.ok.inj htake
      obtain ⟨hcut, hgarbled⟩ := ne_of_isForbidden hentry
      refine h.withText ⟨fun hc => ?_, fun hc => ?_⟩
      · exact (List.mem_cons.1 hc).elim (fun heq => hcut heq.symm) h.text.1
      · exact (List.mem_cons.1 hc).elim (fun heq => hgarbled heq.symm) h.text.2
  | entityDeclared => cases htake
  | comment t =>
      obtain rfl := Except.ok.inj htake
      exact h
  | skipped reference =>
      obtain rfl := Except.ok.inj htake
      exact h

end Draft

/-! ## Files -/

theorem exists_ofBytes (octets : Bytes) : ∃ t, (Decoded.ofBytes octets).1 = .of t := by
  unfold Decoded.ofBytes
  simp only
  split
  · exact ⟨_, rfl⟩
  · split <;> exact ⟨_, rfl⟩

/-- The value of a file in markup is sound. -/
theorem readMarkup_sound {octets : Bytes} {value : Value}
    (h : readMarkup octets = .ok (some value)) : value.Every Value.IsSound := by
  obtain ⟨t, ht⟩ := exists_ofBytes octets
  unfold readMarkup at h
  simp only [ht] at h
  split at h
  · cases h
  · obtain ⟨draft, hfold, h⟩ := bind_eq_ok.1 h
    have hstep (d d' : Draft) (entry : Nat × Event) (hd : d.IsSound) (hentry : entry.2.IsLegal)
        (htake : d.take (Decoded.of t).text entry = .ok d') : d'.IsSound := hd.take hentry htake
    have hsound := foldlM_keeps hstep (Events.areLegal_ofDocument false false t)
      Draft.isSound_initial hfold
    split at h
    · cases h
    · exact hsound.value value (Except.ok.inj h)

/-- The entries of a file in markup are sound. -/
theorem Document.read_markup_sound {octets : Bytes} {entries : List (Text × Value)}
    (h : Document.read octets = .ok (.markup entries)) :
    (Value.dictionary entries).Every Value.IsSound := by
  unfold Document.read at h
  split_ifs at h
  · obtain rfl := Document.markup.inj (Except.ok.inj h)
    exact every_nil_dictionary
  · obtain ⟨found, hread, h⟩ := bind_eq_ok.1 h
    split at h
    · obtain rfl := Document.markup.inj (Except.ok.inj h)
      exact readMarkup_sound hread
    · cases h
  · split at h
    · cases h
    · split at h <;> cases h

end BundleHook.PropertyList
