import Mathlib.Data.List.Forall2
import BundleHook.Proofs.PropertyList.BinaryObject
import BundleHook.Proofs.PropertyList.Rereading
import BundleHook.PropertyList.Archive

/-!
# The value of an archive

An object holds a value when its parts hold the parts of the value. Objects may be shared, and those
that lie inside themselves hold nothing. Numbers with fractions and dates are left out: the two kinds
of property lists do not write them alike.

* `Holds.unique` — an object holds one value at most;
* `Holds.map` — objects that are carried over to another archive hold what they held.
-/

namespace BundleHook.PropertyList

/-- The value of an object without parts. -/
def BinaryObject.leaf? : BinaryObject → Option Value
  | text t => some (.text t)
  | flag b => some (.flag b)
  | integer n => some (.integer n)
  | data octets => some (.data octets)
  | _ => none

namespace Archive

variable {a a' : Archive} {ref : Nat} {value : Value}

/-- The object that a reference stands for holds a value. -/
inductive Holds (a : Archive) : Nat → Value → Prop where
  | leaf {ref : Nat} {object : BinaryObject} {value : Value} (hobject : a.object? ref = some object)
      (hvalue : object.leaf? = some value) : Holds a ref value
  | array {ref : Nat} {refs : List Nat} {items : List Value}
      (hobject : a.object? ref = some (.array refs)) (hlength : refs.length = items.length)
      (hitems : ∀ pair ∈ refs.zip items, Holds a pair.1 pair.2) : Holds a ref (.array items)
  | dictionary {ref : Nat} {refs : List (Nat × Nat)} {entries : List (Text × Value)}
      (hobject : a.object? ref = some (.dictionary refs)) (hlength : refs.length = entries.length)
      (hkeys : ∀ pair ∈ refs.zip entries, a.text? pair.1.1 = some pair.2.1)
      (hvalues : ∀ pair ∈ refs.zip entries, Holds a pair.1.2 pair.2.2) :
      Holds a ref (.dictionary entries)

/-! ## What an object that holds a value is like -/

theorem text?_eq_some {t : Text} : a.text? ref = some t ↔ a.object? ref = some (.text t) := by
  unfold text?
  cases a.object? ref with
  | none => simp
  | some object => cases object <;> simp [BinaryObject.text?]

theorem holds_text {t : Text} : a.Holds ref (.text t) ↔ a.text? ref = some t := by
  rw [text?_eq_some]
  refine ⟨fun h => ?_, fun h => .leaf h rfl⟩
  cases h with
  | @leaf _ object _ hobject hvalue =>
      cases object <;> simp_all [BinaryObject.leaf?]

/-- The entry of an object and that of a value correspond. -/
def HoldsEntry (a : Archive) (refs : Nat × Nat) (entry : Text × Value) : Prop :=
  a.text? refs.1 = some entry.1 ∧ a.Holds refs.2 entry.2

theorem holds_dictionary {entries : List (Text × Value)} :
    a.Holds ref (.dictionary entries) ↔
      ∃ refs, a.object? ref = some (.dictionary refs) ∧
        List.Forall₂ a.HoldsEntry refs entries := by
  constructor
  · intro h
    cases h with
    | @leaf _ object _ _ hvalue => cases object <;> simp [BinaryObject.leaf?] at hvalue
    | dictionary hobject hlength hkeys hvalues =>
        exact ⟨_, hobject, List.forall₂_iff_zip.2
          ⟨hlength, fun hpair => ⟨hkeys _ hpair, hvalues _ hpair⟩⟩⟩
  · rintro ⟨refs, hobject, hentries⟩
    obtain ⟨hlength, hentries⟩ := List.forall₂_iff_zip.1 hentries
    exact .dictionary hobject hlength (fun pair hpair => (hentries hpair).1)
      fun pair hpair => (hentries hpair).2

/-- What is a dictionary of objects holds nothing but a dictionary. -/
theorem Holds.of_dictionary (h : a.Holds ref value) {refs : List (Nat × Nat)}
    (hobject : a.object? ref = some (.dictionary refs)) :
    ∃ entries, value = .dictionary entries ∧ List.Forall₂ a.HoldsEntry refs entries := by
  cases h with
  | leaf hobject' hvalue =>
      obtain rfl := Option.some.inj (hobject.symm.trans hobject')
      cases hvalue
  | array hobject' => cases hobject.symm.trans hobject'
  | @dictionary _ refs' entries hobject' hlength hkeys hvalues =>
      cases Option.some.inj (hobject.symm.trans hobject')
      exact ⟨entries, rfl, List.forall₂_iff_zip.2
        ⟨hlength, fun hpair => ⟨hkeys _ hpair, hvalues _ hpair⟩⟩⟩

/-- An object that holds a value is written and read exactly. -/
theorem Holds.isExact (h : a.Holds ref value) {object : BinaryObject}
    (hobject : a.object? ref = some object) : object.IsExact := by
  cases h with
  | leaf hobject' hvalue =>
      obtain rfl := Option.some.inj (hobject.symm.trans hobject')
      cases object <;> trivial
  | array hobject' | dictionary hobject' =>
      obtain rfl := Option.some.inj (hobject.symm.trans hobject')
      trivial

theorem Holds.exists_object (h : a.Holds ref value) : ∃ object, a.object? ref = some object := by
  cases h with
  | leaf hobject | array hobject | dictionary hobject => exact ⟨_, hobject⟩

/-- An object holds a text only if it is one. -/
theorem Holds.text?_eq_some_iff (h : a.Holds ref value) {t : Text} :
    a.text? ref = some t ↔ value = .text t := by
  rw [text?_eq_some]
  cases h with
  | @leaf _ object _ hobject hvalue =>
      rw [hobject]
      cases object <;> simp_all [BinaryObject.leaf?, eq_comm]
  | array hobject | dictionary hobject => simp [hobject]

/-! ## One value at most -/

theorem eq_of_forall_zip {α β : Type} {R : α → β → Prop} {xs : List α} {ys zs : List β}
    (hlength : xs.length = ys.length)
    (hunique : ∀ pair ∈ xs.zip ys, ∀ z, R pair.1 z → pair.2 = z) (h : List.Forall₂ R xs zs) :
    ys = zs := by
  induction h generalizing ys with
  | nil => exact List.eq_nil_of_length_eq_zero hlength.symm
  | @cons x z xs zs hR _ ih =>
      obtain _ | ⟨y, ys⟩ := ys
      · cases hlength
      · obtain ⟨hfirst, hrest⟩ := List.forall_mem_cons.1 hunique
        exact congrArg₂ List.cons (hfirst z hR) (ih (Nat.succ.inj hlength) hrest)

/-- The object that a reference stands for holds one value at most. -/
theorem Holds.unique (h : a.Holds ref value) {value' : Value} (h' : a.Holds ref value') :
    value = value' := by
  induction h generalizing value' with
  | @leaf ref object value hobject hvalue =>
      cases h' with
      | leaf hobject' hvalue' =>
          obtain rfl := Option.some.inj (hobject.symm.trans hobject')
          exact Option.some.inj (hvalue.symm.trans hvalue')
      | array hobject' | dictionary hobject' =>
          obtain rfl := Option.some.inj (hobject.symm.trans hobject')
          cases hvalue
  | @array ref refs items hobject hlength hitems ih =>
      cases h' with
      | leaf hobject' hvalue' =>
          obtain rfl := Option.some.inj (hobject.symm.trans hobject')
          cases hvalue'
      | array hobject' hlength' hitems' =>
          cases Option.some.inj (hobject.symm.trans hobject')
          rw [eq_of_forall_zip hlength (fun pair hpair z hz => ih pair hpair hz)
            (List.forall₂_iff_zip.2 ⟨hlength', fun hpair => hitems' _ hpair⟩)]
      | dictionary hobject' => cases hobject.symm.trans hobject'
  | @dictionary ref refs entries hobject hlength hkeys hvalues ih =>
      cases h' with
      | leaf hobject' hvalue' =>
          obtain rfl := Option.some.inj (hobject.symm.trans hobject')
          cases hvalue'
      | array hobject' => cases hobject.symm.trans hobject'
      | dictionary hobject' hlength' hkeys' hvalues' =>
          cases Option.some.inj (hobject.symm.trans hobject')
          rw [eq_of_forall_zip (R := a.HoldsEntry) hlength
            (fun pair hpair z hz => Prod.ext
              (Option.some.inj ((hkeys pair hpair).symm.trans hz.1)) (ih pair hpair hz.2))
            (List.forall₂_iff_zip.2
              ⟨hlength', fun hpair => ⟨hkeys' _ hpair, hvalues' _ hpair⟩⟩)]

/-! ## Objects that are carried over -/

/-- What is held at the parts of an object that holds a value lies inside the value. -/
theorem Holds.of_part (h : a.Holds ref value) {object : BinaryObject}
    (hobject : a.object? ref = some object) {part : Nat} (hpart : part ∈ object.parts) :
    ∃ inner, a.Holds part inner ∧ sizeOf inner < sizeOf value ∧
      ∀ P, value.Every P → inner.Every P := by
  cases h with
  | @leaf _ object' _ hobject' hvalue =>
      obtain rfl := Option.some.inj (hobject.symm.trans hobject')
      cases object <;> simp [BinaryObject.leaf?] at hvalue <;> simp [BinaryObject.parts] at hpart
  | @array _ refs items hobject' hlength hitems =>
      obtain rfl := Option.some.inj (hobject.symm.trans hobject')
      have hall : List.Forall₂ a.Holds refs items :=
        List.forall₂_iff_zip.2 ⟨hlength, fun hpair => hitems _ hpair⟩
      obtain ⟨item, hitem, hholds⟩ := exists_left_of_forall₂ hall.flip hpart
      have hsize := List.sizeOf_lt_of_mem hitem
      exact ⟨item, hholds, by rw [Value.array.sizeOf_spec]; omega,
        fun P hevery => (every_array.1 hevery).2 item hitem⟩
  | @dictionary _ refs entries hobject' hlength hkeys hvalues =>
      obtain rfl := Option.some.inj (hobject.symm.trans hobject')
      have hall : List.Forall₂ a.HoldsEntry refs entries :=
        List.forall₂_iff_zip.2 ⟨hlength, fun hpair => ⟨hkeys _ hpair, hvalues _ hpair⟩⟩
      have hinside {entry : Text × Value} (hentry : entry ∈ entries) :
          sizeOf entry.1 + sizeOf entry.2 + 1 < sizeOf (Value.dictionary entries) := by
        have hsize := List.sizeOf_lt_of_mem hentry
        obtain ⟨key, value⟩ := entry
        rw [Prod.mk.sizeOf_spec] at hsize
        rw [Value.dictionary.sizeOf_spec]
        dsimp only
        omega
      rcases List.mem_append.1 hpart with hpart | hpart
      · obtain ⟨pair, hpair, rfl⟩ := List.mem_map.1 hpart
        obtain ⟨entry, hentry, hkey, -⟩ := exists_left_of_forall₂ hall.flip hpair
        have hsize := hinside hentry
        refine ⟨.text entry.1, holds_text.2 hkey, by rw [Value.text.sizeOf_spec]; omega,
          fun P hevery part hpart => ?_⟩
        cases hpart
        exact ((every_dictionary.1 hevery).2 entry hentry).1
      · obtain ⟨pair, hpair, rfl⟩ := List.mem_map.1 hpart
        obtain ⟨entry, hentry, -, hholds⟩ := exists_left_of_forall₂ hall.flip hpair
        have hsize := hinside hentry
        exact ⟨entry.2, hholds, by omega,
          fun P hevery => ((every_dictionary.1 hevery).2 entry hentry).2⟩

/-- Where objects are carried over with their parts, they hold there what they held here. -/
theorem Holds.map {P : Nat → Prop} {number : Nat → Nat}
    (hcarried : ∀ ref object, P ref → a.object? ref = some object →
      a'.object? (number ref) = some (object.renumbered number) ∧ ∀ part ∈ object.parts, P part)
    (h : a.Holds ref value) (hP : P ref) : a'.Holds (number ref) value := by
  induction h with
  | @leaf ref object value hobject hvalue =>
      obtain ⟨hthere, -⟩ := hcarried ref object hP hobject
      refine .leaf hthere ?_
      cases object <;> simp [BinaryObject.leaf?] at hvalue <;> exact congrArg some hvalue
  | @array ref refs items hobject hlength hitems ih =>
      obtain ⟨hthere, hparts⟩ := hcarried ref _ hP hobject
      refine .array hthere (by rwa [List.length_map]) fun pair hpair => ?_
      rw [List.zip_map_left] at hpair
      obtain ⟨old, hold, rfl⟩ := List.mem_map.1 hpair
      exact ih old hold (hparts _ (List.of_mem_zip hold).1)
  | @dictionary ref refs entries hobject hlength hkeys hvalues ih =>
      obtain ⟨hthere, hparts⟩ := hcarried ref _ hP hobject
      have hkeyPart {pair : (Nat × Nat) × Text × Value} (hpair : pair ∈ refs.zip entries) :
          P pair.1.1 :=
        hparts _ (List.mem_append_left _ (List.mem_map_of_mem (List.of_mem_zip hpair).1))
      have hvaluePart {pair : (Nat × Nat) × Text × Value} (hpair : pair ∈ refs.zip entries) :
          P pair.1.2 :=
        hparts _ (List.mem_append_right _ (List.mem_map_of_mem (List.of_mem_zip hpair).1))
      refine .dictionary hthere (by rwa [List.length_map]) (fun pair hpair => ?_)
        fun pair hpair => ?_
      · rw [List.zip_map_left] at hpair
        obtain ⟨old, hold, rfl⟩ := List.mem_map.1 hpair
        exact text?_eq_some.2
          (hcarried _ _ (hkeyPart hold) (text?_eq_some.1 (hkeys old hold))).1
      · rw [List.zip_map_left] at hpair
        obtain ⟨old, hold, rfl⟩ := List.mem_map.1 hpair
        exact ih old hold (hvaluePart hold)

end Archive

end BundleHook.PropertyList
