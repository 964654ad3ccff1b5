import BundleHook.Proofs.Entries
import BundleHook.Proofs.Markup.Telling
import Mathlib.Data.List.TakeWhile

/-!
# Names as they are written

A tree is written with prefixes of its own choice. The bindings that its root declares lead every
written name back to the name it is written for.
-/

namespace BundleHook.Markup

/-! ## Prefixes -/

theorem colon_notMem {word : Text} (h : ∀ c ∈ word, isNameMore c = true) : ':' ∉ word := by
  intro hmem
  have hcolon := h ':' hmem
  revert hcolon
  decide

theorem colon_notMem_of_isPlainName {word : Text} (h : isPlainName word = true) : ':' ∉ word :=
  colon_notMem fun _ hc => isNameMore_of_isPlainName h hc

theorem splitName_of_notMem {word : Text} (h : ':' ∉ word) : splitName word = (none, word) := by
  have hdrop : word.dropWhile (· != ':') = [] := by
    refine List.dropWhile_eq_nil_iff.2 fun c hc => ?_
    simpa using fun heq : c = ':' => h (heq ▸ hc)
  rw [splitName, hdrop]

theorem splitName_prefixed {short : Text} (h : ':' ∉ short) (part : Text) :
    splitName (short ++ ':' :: part) = (some short, part) := by
  have hall : ∀ c ∈ short, (c != ':') = true := by
    intro c hc
    simpa using fun heq : c = ':' => h (heq ▸ hc)
  have hdrop : (short ++ ':' :: part).dropWhile (· != ':') = ':' :: part := by
    rw [List.dropWhile_append_of_pos hall]
    simp
  have htake : (short ++ ':' :: part).takeWhile (· != ':') = short := by
    rw [List.takeWhile_append_of_pos hall]
    simp
  rw [splitName, hdrop, htake]

theorem declaredPrefix?_declaration (short : Text) :
    declaredPrefix? ("xmlns:".toList ++ short) = some short := by
  simp [declaredPrefix?]

theorem declaredPrefix?_of_notMem {word : Text} (h : ':' ∉ word) (hne : word ≠ "xmlns".toList) :
    declaredPrefix? word = none := by
  have hlong : "xmlns:".toList.isPrefixOf word = false := by
    rw [Bool.eq_false_iff]
    intro hprefix
    obtain ⟨rest, rfl⟩ := List.isPrefixOf_iff_prefix.1 hprefix
    exact h (by simp)
  rw [declaredPrefix?, if_neg hne, hlong]
  rfl

theorem declaredPrefix?_prefixed {short : Text} (h : ':' ∉ short) (hne : short ≠ "xmlns".toList)
    (part : Text) : declaredPrefix? (short ++ ':' :: part) = none := by
  have hbare : short ++ ':' :: part ≠ "xmlns".toList := by
    intro heq
    have hmem : ':' ∈ "xmlns".toList := heq ▸ by simp
    revert hmem
    decide
  have hlong : "xmlns:".toList.isPrefixOf (short ++ ':' :: part) = false := by
    rw [Bool.eq_false_iff]
    intro hprefix
    obtain ⟨rest, hrest⟩ := List.isPrefixOf_iff_prefix.1 hprefix
    have hsplit := congrArg splitName hrest
    have hxmlns : "xmlns:".toList ++ rest = "xmlns".toList ++ ':' :: rest := rfl
    rw [hxmlns, splitName_prefixed (by decide), splitName_prefixed h] at hsplit
    exact hne (Option.some.inj (Prod.ext_iff.1 hsplit).1).symm
  rw [declaredPrefix?, if_neg hbare, hlong]
  rfl

theorem declare_append {ns : Bool} {b b' : Bindings} {written others : List (Text × Text)}
    (h : b.declare ns written = .ok b') :
    b.declare ns (written ++ others) = b'.declare ns others := by
  simp only [Bindings.declare] at h ⊢
  rw [List.foldlM_append, h, ok_bind]

theorem declare_of_none {ns : Bool} {b : Bindings} {written : List (Text × Text)}
    (h : ∀ entry ∈ written, declaredPrefix? entry.1 = none) : b.declare ns written = .ok b := by
  induction written with
  | nil => rfl
  | cons entry written ih =>
      have hentry := h entry List.mem_cons_self
      have hrest := ih fun other hother => h other (List.mem_cons_of_mem entry hother)
      simp only [Bindings.declare] at hrest ⊢
      simp only [List.foldlM_cons, hentry, ite_self, ok_bind, hrest]

/-! ## Writing a name and reading it -/

/-- A name that an element or an attribute may have: what its local part and its namespace can be. -/
structure Name.IsSound (name : Name) : Prop where
  part_ne_nil : name.part ≠ []
  part : ∀ c ∈ name.part, isNameMore c = true
  plain : name.uri = [] → isPlainName name.part = true
  legal : ∀ c ∈ name.uri, isForbidden c = false
  unmarked : name.uri.any isLabelMark = false
  unreserved : name.uri ≠ xmlnsUri

/-- The local part of the name begins as a name does. -/
def Name.IsSpelled (name : Name) : Prop := isPlainName name.part = true

instance (name : Name) : Decidable name.IsSpelled := inferInstanceAs (Decidable (_ = _))

/-- The declarations have a prefix for the name, if it needs one. -/
def Declarations.Covers (d : Declarations) (name : Name) : Prop :=
  name.uri = [] ∨ name.uri = xmlUri ∨ (d.lookup name.uri).isSome

/-- The bindings lead the declared prefixes back to their namespaces. -/
structure Bindings.Serves (b : Bindings) (d : Declarations) : Prop where
  xml : b.find? "xml".toList = some xmlUri
  default : b.find? [] = none
  declared : ∀ uri short, d.lookup uri = some short →
    isPlainName short = true ∧ short ≠ "xmlns".toList ∧ b.find? short = some uri

section Writing

variable {d : Declarations} {b : Bindings} (hb : b.Serves d) {name : Name} (hd : d.Covers name)

include hb hd

theorem write_cases : (name.uri = [] ∧ d.write name = name.part) ∨
    ∃ short, isPlainName short = true ∧ short ≠ "xmlns".toList ∧ b.find? short = some name.uri ∧
      d.write name = short ++ ':' :: name.part := by
  by_cases hnone : name.uri = []
  · exact .inl ⟨hnone, by simp [Declarations.write, hnone]⟩
  by_cases hxml : name.uri = xmlUri
  · refine .inr ⟨"xml".toList, by decide, by decide, hxml ▸ hb.xml, ?_⟩
    simp only [Declarations.write, List.isEmpty_iff, if_neg hnone, if_pos hxml]
    rfl
  obtain ⟨short, hshort⟩ := Option.isSome_iff_exists.1 ((hd.resolve_left hnone).resolve_left hxml)
  obtain ⟨hplain, hne, hfind⟩ := hb.declared _ _ hshort
  refine .inr ⟨short, hplain, hne, hfind, ?_⟩
  simp [Declarations.write, hnone, hxml, hshort]

variable (hsound : name.IsSound)

include hsound

theorem elementName_write : b.elementName (d.write name) = .ok name := by
  rcases write_cases hb hd with ⟨hnone, hwrite⟩ | ⟨short, hplain, -, hfind, hwrite⟩
  · rw [hwrite, Bindings.elementName, splitName_of_notMem (colon_notMem hsound.part)]
    rw [hb.default, ← hnone]
    rfl
  · rw [hwrite, Bindings.elementName, splitName_prefixed (colon_notMem_of_isPlainName hplain)]
    simp [hfind]

theorem attributeName_write : b.attributeName (d.write name) = .ok name := by
  have hname := elementName_write hb hd hsound
  rcases write_cases hb hd with ⟨hnone, hwrite⟩ | ⟨short, hplain, -, -, hwrite⟩
  · rw [hwrite, Bindings.attributeName, splitName_of_notMem (colon_notMem hsound.part)]
    simp [← hnone]
  · rw [hwrite] at hname ⊢
    rw [Bindings.attributeName, splitName_prefixed (colon_notMem_of_isPlainName hplain)]
    exact hname

theorem declaredPrefix?_write (hne : name ≠ ⟨[], "xmlns".toList⟩) :
    declaredPrefix? (d.write name) = none := by
  rcases write_cases hb hd with ⟨hnone, hwrite⟩ | ⟨short, hplain, hshort, -, hwrite⟩
  · rw [hwrite]
    refine declaredPrefix?_of_notMem (colon_notMem hsound.part) fun hpart => hne ?_
    rw [← hnone, ← hpart]
  · rw [hwrite]
    exact declaredPrefix?_prefixed (colon_notMem_of_isPlainName hplain) hshort _

omit hsound in
theorem isTagName_write (hspelled : name.IsSpelled) : IsTagName (d.write name) := by
  rcases write_cases hb hd with ⟨-, hwrite⟩ | ⟨short, hplain, -, -, hwrite⟩
  · rw [hwrite]
    exact .plain hspelled
  · rw [hwrite]
    exact .prefixed hplain hspelled

/-- A name that is not spelled out is written with a prefix. -/
theorem write_of_not_isSpelled (hspelled : ¬name.IsSpelled) :
    ∃ short c others, isPlainName short = true ∧ isNameStart c = false ∧
      d.write name = short ++ ':' :: c :: others := by
  obtain ⟨c, others, hpart⟩ := List.exists_cons_of_ne_nil hsound.part_ne_nil
  rcases write_cases hb hd with ⟨hnone, -⟩ | ⟨short, hplain, -, -, hwrite⟩
  · exact absurd (hsound.plain hnone) hspelled
  · refine ⟨short, c, others, hplain, ?_, by rw [hwrite, hpart]⟩
    have hmore : others.all isNameMore = true := by
      rw [List.all_eq_true]
      exact fun d hd => hsound.part d (hpart ▸ List.mem_cons_of_mem c hd)
    simpa [Name.IsSpelled, hpart, isPlainName, hmore] using hspelled

end Writing

/-- Two names are not written the same. -/
theorem write_injective {d : Declarations} {b : Bindings} (hb : b.Serves d) {name name' : Name}
    (hd : d.Covers name) (hd' : d.Covers name') (hsound : name.IsSound) (hsound' : name'.IsSound)
    (h : d.write name = d.write name') : name = name' := by
  have hname := attributeName_write hb hd hsound
  rw [h, attributeName_write hb hd' hsound'] at hname
  exact (Except.ok.inj hname).symm

/-! ## Prefixes of a tree's own choice -/

/-- The prefix with a number. -/
def numbered (k : Nat) : Text := 'n' :: 's' :: Nat.toDigits 10 k

theorem numbered_injective {k k' : Nat} (h : numbered k = numbered k') : k = k' := by
  have hdigits : Nat.toDigits 10 k = Nat.toDigits 10 k' := by simpa [numbered] using h
  rw [← Nat.ofDigitChars_ten_toDigits (n := k), hdigits, Nat.ofDigitChars_ten_toDigits]

theorem isNameMore_of_isDigit {c : Char} (h : c.isDigit = true) : isNameMore c = true := by
  have hsmall : c.toNat < 0x80 := by
    simp only [Char.isDigit, Bool.and_eq_true, decide_eq_true_eq] at h
    have hle : c.toNat ≤ '9'.toNat := h.2
    exact hle.trans_lt (by decide)
  simp [isNameMore, hsmall, Char.isAlphanum, h]

theorem isPlainName_numbered (k : Nat) : isPlainName (numbered k) = true := by
  have hdigits : (Nat.toDigits 10 k).all isNameMore = true :=
    List.all_eq_true.2 fun c hc =>
      isNameMore_of_isDigit (Nat.isDigit_of_mem_toDigits (by decide) (by decide) hc)
  have hn : isNameStart 'n' = true := by decide
  have hs : isNameMore 's' = true := by decide
  simp [numbered, isPlainName, hdigits, hn, hs]

/-- A well-known prefix is a name, and none of the numbered ones. -/
theorem wellKnown_short {uri short : Text} (h : wellKnownPrefixes.lookup uri = some short) :
    isPlainName short = true ∧ short ≠ "xmlns".toList ∧ (short = "xml".toList → uri = xmlUri) ∧
      ∀ k, short ≠ numbered k := by
  have hall : ∀ entry ∈ wellKnownPrefixes, isPlainName entry.2 = true ∧
      entry.2 ≠ "xmlns".toList ∧ (entry.2 = "xml".toList → entry.1 = xmlUri) ∧
      entry.2.take 2 ≠ ['n', 's'] := by
    decide
  obtain ⟨hplain, hxmlns, hxml, htake⟩ := hall _ (mem_of_lookup h)
  refine ⟨hplain, hxmlns, hxml, fun k hk => htake ?_⟩
  rw [show short = numbered k from hk]
  rfl

theorem wellKnown_injective {uri uri' short : Text}
    (h : wellKnownPrefixes.lookup uri = some short)
    (h' : wellKnownPrefixes.lookup uri' = some short) : uri = uri' := by
  have hnodup : (wellKnownPrefixes.map (·.2)).Nodup := by decide
  have heq := List.inj_on_of_nodup_map hnodup (mem_of_lookup h) (mem_of_lookup h') rfl
  exact (Prod.ext_iff.1 heq).1

/-! ## Declarations -/

/-- What may be declared. -/
structure IsDeclarable (uri : Text) : Prop where
  ne_nil : uri ≠ []
  ne_xml : uri ≠ xmlUri
  ne_xmlns : uri ≠ xmlnsUri
  unmarked : uri.any isLabelMark = false
  legal : ∀ c ∈ uri, isForbidden c = false

/-- Declarations as names make them: the prefixes are well-known or numbered. -/
structure Declarations.IsSound (d : Declarations) : Prop where
  nodup : (d.map (·.1)).Nodup
  shorts : (d.map (·.2)).Nodup
  uri : ∀ entry ∈ d, IsDeclarable entry.1
  short : ∀ entry ∈ d, wellKnownPrefixes.lookup entry.1 = some entry.2 ∨
    ∃ k < d.length, entry.2 = numbered k

namespace Declarations

variable {d : Declarations} {name : Name}

theorem isSound_nil : IsSound [] :=
  ⟨.nil, .nil, fun _ h => absurd h List.not_mem_nil, fun _ h => absurd h List.not_mem_nil⟩

/-- A name adds nothing, or its namespace with a prefix that is well-known or fresh by its number. -/
theorem addName_cases (d : Declarations) (name : Name) :
    (d.addName name = d ∧ d.Covers name) ∨
      (name.uri ≠ [] ∧ name.uri ≠ xmlUri ∧ name.uri ∉ d.map (·.1) ∧
        d.addName name = d ++ [(name.uri,
          (wellKnownPrefixes.lookup name.uri).getD (numbered d.length))]) := by
  unfold addName
  split
  · next h =>
    simp only [Bool.or_eq_true, List.isEmpty_iff, decide_eq_true_eq, or_assoc] at h
    exact .inl ⟨rfl, h⟩
  · next h =>
    simp only [Bool.or_eq_true, List.isEmpty_iff, decide_eq_true_eq, not_or] at h
    exact .inr ⟨h.1.1, h.1.2, fun hmem => h.2 (lookup_isSome.2 hmem), rfl⟩

theorem IsSound.addName (hd : d.IsSound) (hname : name.IsSound) : (d.addName name).IsSound := by
  rcases addName_cases d name with ⟨h, -⟩ | ⟨hnil, hxml, hfresh, h⟩
  · rwa [h]
  rw [h]
  generalize hshort : (wellKnownPrefixes.lookup name.uri).getD (numbered d.length) = short
  have hkind : wellKnownPrefixes.lookup name.uri = some short ∨ short = numbered d.length := by
    cases hlookup : wellKnownPrefixes.lookup name.uri with
    | none => exact .inr (by rw [← hshort, hlookup]; rfl)
    | some known => exact .inl (by rw [← hshort, hlookup]; rfl)
  have hother : short ∉ d.map (·.2) := by
    rintro hmem
    obtain ⟨⟨uri, other⟩, hentry, rfl⟩ := List.mem_map.1 hmem
    rcases hd.short _ hentry, hkind with ⟨hknown | ⟨k, hk, hnumber⟩, hknown' | hnumber'⟩
    · exact hfresh (wellKnown_injective hknown' hknown ▸ List.mem_map_of_mem hentry)
    · exact (wellKnown_short hknown).2.2.2 _ hnumber'
    · exact (wellKnown_short hknown').2.2.2 _ hnumber
    · exact hk.ne (numbered_injective (hnumber.symm.trans hnumber'))
  have huri : IsDeclarable name.uri :=
    ⟨hnil, hxml, hname.unreserved, hname.unmarked, hname.legal⟩
  refine ⟨?_, ?_, ?_, ?_⟩
  · simpa [List.nodup_append] using ⟨hd.nodup, fun uri other hmem heq =>
      hfresh (heq ▸ List.mem_map_of_mem hmem)⟩
  · simpa [List.nodup_append] using ⟨hd.shorts, fun other uri hmem heq =>
      hother (heq ▸ List.mem_map_of_mem hmem)⟩
  · intro entry hentry
    rcases List.mem_append.1 hentry with hentry | hentry
    · exact hd.uri entry hentry
    · rw [List.mem_singleton.1 hentry]
      exact huri
  · intro entry hentry
    rw [List.length_append]
    rcases List.mem_append.1 hentry with hentry | hentry
    · exact (hd.short entry hentry).imp_right fun ⟨k, hk, hnumber⟩ => ⟨k, by omega, hnumber⟩
    · rw [List.mem_singleton.1 hentry]
      exact hkind.imp_right fun hnumber => ⟨d.length, by simp, hnumber⟩

theorem covers_addName (d : Declarations) (name : Name) : (d.addName name).Covers name := by
  rcases addName_cases d name with ⟨h, hcovers⟩ | ⟨-, -, -, h⟩
  · rwa [h]
  · rw [h]
    exact .inr (.inr (lookup_isSome.2 (by simp)))

theorem Covers.addName (h : d.Covers name) (other : Name) : (d.addName other).Covers name := by
  rcases addName_cases d other with ⟨heq, -⟩ | ⟨-, -, -, heq⟩
  · rwa [heq]
  · rw [heq]
    refine h.imp_right (Or.imp_right fun hlookup => lookup_isSome.2 ?_)
    rw [List.map_append]
    exact List.mem_append_left _ (lookup_isSome.1 hlookup)

/-- The declarations that names make, one after the other. -/
def ofNames (names : List Name) : Declarations := names.foldl addName []

theorem covers_foldl {names : List Name} (h : d.Covers name ∨ name ∈ names) :
    (names.foldl Declarations.addName d).Covers name := by
  induction names generalizing d with
  | nil => exact h.resolve_right List.not_mem_nil
  | cons other names ih =>
      refine ih ?_
      rcases h with h | h
      · exact .inl (h.addName other)
      · rcases List.mem_cons.1 h with rfl | h
        · exact .inl (covers_addName d name)
        · exact .inr h

theorem covers_ofNames {names : List Name} (h : name ∈ names) : (ofNames names).Covers name :=
  covers_foldl (.inr h)

theorem IsSound.foldl {names : List Name} (hd : d.IsSound) (h : ∀ name ∈ names, name.IsSound) :
    (names.foldl Declarations.addName d).IsSound := by
  induction names generalizing d with
  | nil => exact hd
  | cons name names ih =>
      exact ih (hd.addName (h name List.mem_cons_self)) fun other hother =>
        h other (List.mem_cons_of_mem name hother)

theorem isSound_ofNames {names : List Name} (h : ∀ name ∈ names, name.IsSound) :
    (ofNames names).IsSound := isSound_nil.foldl h

/-! ## Declarations in the root -/

/-- The declarations in the order in which they are written. -/
def sorted (d : Declarations) : List (Text × Text) :=
  d.mergeSort fun x y => !decide (y.2 < x.2)

theorem sorted_perm (d : Declarations) : d.sorted.Perm d := List.mergeSort_perm _ _

/-- The declarations as attributes of the root. -/
def attributes (d : Declarations) : List (Text × Text) :=
  d.sorted.map fun entry => ("xmlns:".toList ++ entry.2, entry.1)

/-- The bindings that the root declares. -/
def bindings (d : Declarations) : Bindings :=
  (d.sorted.map fun entry => (entry.2, entry.1)).reverse ++ .initial

theorem IsSound.short_cases (hd : d.IsSound) {entry : Text × Text} (hentry : entry ∈ d) :
    isPlainName entry.2 = true ∧ entry.2 ≠ "xmlns".toList ∧ entry.2 ≠ "xml".toList := by
  rcases hd.short entry hentry with h | ⟨k, -, h⟩
  · obtain ⟨hplain, hxmlns, hxml, -⟩ := wellKnown_short h
    exact ⟨hplain, hxmlns, fun heq => (hd.uri entry hentry).ne_xml (hxml heq)⟩
  · rw [h]
    refine ⟨isPlainName_numbered k, ?_, ?_⟩ <;> simp [numbered]

theorem bind_ok {b : Bindings} {short uri : Text} (huri : IsDeclarable uri)
    (hxmlns : short ≠ "xmlns".toList) (hxml : short ≠ "xml".toList) :
    b.bind short uri = .ok ((short, uri) :: b) := by
  have hempty : uri.isEmpty = false := List.isEmpty_eq_false_iff.2 huri.ne_nil
  simp only [Bindings.bind, hempty, if_neg hxmlns, huri.unmarked, hxml, huri.ne_xml, huri.ne_xmlns,
    decide_false, Bool.false_and, Bool.and_false, Bool.false_eq_true, if_false]

theorem declare_declarations {b : Bindings} {entries : List (Text × Text)}
    (h : ∀ entry ∈ entries, IsDeclarable entry.1 ∧ entry.2 ≠ "xmlns".toList ∧
      entry.2 ≠ "xml".toList) :
    Bindings.declare true b (entries.map fun entry => ("xmlns:".toList ++ entry.2, entry.1)) =
      .ok ((entries.map fun entry => (entry.2, entry.1)).reverse ++ b) := by
  induction entries generalizing b with
  | nil => rfl
  | cons entry entries ih =>
      obtain ⟨huri, hxmlns, hxml⟩ := h entry List.mem_cons_self
      have hrest := ih (b := (entry.2, entry.1) :: b) fun other hother =>
        h other (List.mem_cons_of_mem entry hother)
      simp only [Bindings.declare, if_true] at hrest ⊢
      simp only [List.map_cons, List.foldlM_cons, declaredPrefix?_declaration,
        bind_ok huri hxmlns hxml, BundleHook.ok_bind, hrest, List.reverse_cons, List.append_assoc,
        List.singleton_append]

theorem IsSound.declare_attributes (hd : d.IsSound) :
    Bindings.declare true .initial d.attributes = .ok d.bindings := by
  refine declare_declarations fun entry hentry => ?_
  have hentry : entry ∈ d := d.sorted_perm.subset hentry
  exact ⟨hd.uri entry hentry, (hd.short_cases hentry).2⟩

theorem IsSound.find?_bindings (hd : d.IsSound) {uri short : Text} (h : (uri, short) ∈ d) :
    d.bindings.find? short = some uri := by
  have hkeys : (d.sorted.map fun entry => (entry.2, entry.1)).reverse.map (·.1) =
      (d.sorted.map (·.2)).reverse := by
    rw [List.map_reverse, List.map_map]
    rfl
  have hnodup : (((d.sorted.map fun entry => (entry.2, entry.1)).reverse).map (·.1)).Nodup := by
    rw [hkeys, List.nodup_reverse]
    exact (d.sorted_perm.map _).nodup_iff.2 hd.shorts
  have hmem : (short, uri) ∈ (d.sorted.map fun entry => (entry.2, entry.1)).reverse :=
    List.mem_reverse.2 (List.mem_map.2 ⟨(uri, short), d.sorted_perm.symm.subset h, rfl⟩)
  have hlookup : d.bindings.lookup short = some uri := by
    rw [bindings, List.lookup_append, lookup_of_mem hnodup hmem]
    rfl
  simp [Bindings.find?, hlookup, (hd.uri _ h).ne_nil]

theorem lookup_bindings_of_notMem {short : Text} (h : ∀ entry ∈ d, entry.2 ≠ short) :
    d.bindings.lookup short = Bindings.initial.lookup short := by
  have hnone : (d.sorted.map fun entry => (entry.2, entry.1)).reverse.lookup short = none := by
    rw [List.lookup_eq_none_iff]
    intro entry hentry
    obtain ⟨source, hsource, rfl⟩ := List.mem_map.1 (List.mem_reverse.1 hentry)
    simpa using (h source (d.sorted_perm.subset hsource)).symm
  rw [bindings, List.lookup_append, hnone, Option.none_or]

theorem IsSound.serves (hd : d.IsSound) : d.bindings.Serves d where
  xml := by
    rw [Bindings.find?, lookup_bindings_of_notMem fun entry hentry => (hd.short_cases hentry).2.2]
    decide
  default := by
    rw [Bindings.find?, lookup_bindings_of_notMem fun entry hentry hnil => ?_]
    · decide
    · have hplain := (hd.short_cases hentry).1
      rw [hnil] at hplain
      cases hplain
  declared uri short h := by
    have hmem := mem_of_lookup h
    exact ⟨(hd.short_cases hmem).1, (hd.short_cases hmem).2.1, hd.find?_bindings hmem⟩

theorem attributes_nodup (hd : d.IsSound) : (d.attributes.map (·.1)).Nodup := by
  have hshorts : (d.sorted.map (·.2)).Nodup := (d.sorted_perm.map _).nodup_iff.2 hd.shorts
  have hkeys : d.attributes.map (·.1) = (d.sorted.map (·.2)).map ("xmlns:".toList ++ ·) := by
    simp [attributes]
  rw [hkeys]
  exact hshorts.map fun short short' h => List.append_cancel_left h

theorem IsSound.attributes_written (hd : d.IsSound) {entry : Text × Text}
    (hentry : entry ∈ d.attributes) :
    IsTagName entry.1 ∧ ∀ c ∈ entry.2, isForbidden c = false := by
  obtain ⟨source, hsource, rfl⟩ := List.mem_map.1 hentry
  have hsource : source ∈ d := d.sorted_perm.subset hsource
  have hxmlns : isPlainName "xmlns".toList = true := by decide
  exact ⟨.prefixed hxmlns (hd.short_cases hsource).1, (hd.uri source hsource).legal⟩

theorem declaredPrefix?_attributes {entry : Text × Text} (hentry : entry ∈ d.attributes) :
    (declaredPrefix? entry.1).isSome := by
  obtain ⟨source, -, rfl⟩ := List.mem_map.1 hentry
  rw [declaredPrefix?_declaration]
  rfl

theorem writeAll_eq (d : Declarations) : d.writeAll = writeAttributes d.attributes := by
  simp only [writeAll, writeAttributes, attributes, List.flatMap_map]
  rfl

end Declarations

/-! ## Attributes -/

/-- Attributes that do nothing but declare namespaces: they lead from the bindings outside an
element to those inside of it. -/
structure Declare (outer b : Bindings) (declared : List (Text × Text)) : Prop where
  isSome : ∀ entry ∈ declared, (declaredPrefix? entry.1).isSome
  nodup : (declared.map (·.1)).Nodup
  written : ∀ entry ∈ declared, IsTagName entry.1 ∧ ∀ c ∈ entry.2, isForbidden c = false
  declares : outer.declare true declared = .ok b

theorem declare_nil (b : Bindings) : Declare b b [] where
  isSome _ h := absurd h List.not_mem_nil
  nodup := .nil
  written _ h := absurd h List.not_mem_nil
  declares := rfl

theorem Declarations.IsSound.declare {d : Declarations} (hd : d.IsSound) :
    Declare .initial d.bindings d.attributes where
  isSome _ := declaredPrefix?_attributes
  nodup := attributes_nodup hd
  written _ := hd.attributes_written
  declares := hd.declare_attributes

/-- Attributes with their names as they are written. -/
def Declarations.writeNames (d : Declarations) (attributes : List (Name × Text)) :
    List (Text × Text) :=
  attributes.map fun entry => (d.write entry.1, entry.2)

theorem named_of_declared {b : Bindings} {declared : List (Text × Text)}
    (h : ∀ entry ∈ declared, (declaredPrefix? entry.1).isSome) (written : List (Text × Text))
    (before : List (Name × Text)) :
    AttributesRead.named b (declared ++ written) before =
      AttributesRead.named b written before := by
  induction declared with
  | nil => rfl
  | cons entry declared ih =>
      rw [List.cons_append, AttributesRead.named, if_pos (h entry List.mem_cons_self)]
      exact ih fun other hother => h other (List.mem_cons_of_mem entry hother)

section Attributes

variable {d : Declarations} {b : Bindings} (hb : b.Serves d) {attributes : List (Name × Text)}
  (hsound : ∀ entry ∈ attributes, entry.1.IsSound ∧ entry.1 ≠ ⟨[], "xmlns".toList⟩ ∧
    d.Covers entry.1)

include hb hsound

theorem named_writeNames {before : List (Name × Text)}
    (hnodup : ((before.reverse ++ attributes).map (·.1)).Nodup) :
    AttributesRead.named b (d.writeNames attributes) before =
      .ok (before.reverse ++ attributes) := by
  induction attributes generalizing before with
  | nil => simp [Declarations.writeNames, AttributesRead.named]
  | cons entry attributes ih =>
      obtain ⟨hname, hne, hcovers⟩ := hsound entry List.mem_cons_self
      have hfresh : (before.any fun other => other.1 = entry.1) = false := by
        rw [List.any_eq_false]
        intro other hother
        rw [List.map_append, List.nodup_append] at hnodup
        simpa using hnodup.2.2 other.1 (List.mem_map_of_mem (List.mem_reverse.2 hother)) entry.1
          (by simp)
      have hnext : (((entry :: before).reverse ++ attributes).map (·.1)).Nodup := by
        simpa using hnodup
      have hrest := ih (fun other hother => hsound other (List.mem_cons_of_mem entry hother)) hnext
      rw [Declarations.writeNames, List.map_cons, AttributesRead.named,
        declaredPrefix?_write hb hcovers hname hne, attributeName_write hb hcovers hname]
      simp only [Option.isSome_none, Bool.false_eq_true, if_false, hfresh]
      rw [Declarations.writeNames] at hrest
      rw [hrest]
      simp

theorem declaredPrefix?_writeNames {entry : Text × Text} (hentry : entry ∈ d.writeNames attributes) :
    declaredPrefix? entry.1 = none := by
  obtain ⟨source, hsource, rfl⟩ := List.mem_map.1 hentry
  obtain ⟨hname, hne, hcovers⟩ := hsound source hsource
  exact declaredPrefix?_write hb hcovers hname hne

theorem writeNames_nodup (hnodup : (attributes.map (·.1)).Nodup) :
    ((d.writeNames attributes).map (·.1)).Nodup := by
  have hkeys : (d.writeNames attributes).map (·.1) = (attributes.map (·.1)).map d.write := by
    simp [Declarations.writeNames]
  rw [hkeys]
  refine List.Nodup.map_on (fun name hname name' hname' h => ?_) hnodup
  obtain ⟨entry, hentry, rfl⟩ := List.mem_map.1 hname
  obtain ⟨entry', hentry', rfl⟩ := List.mem_map.1 hname'
  obtain ⟨hsound₁, -, hcovers₁⟩ := hsound entry hentry
  obtain ⟨hsound₂, -, hcovers₂⟩ := hsound entry' hentry'
  exact write_injective hb hcovers₁ hcovers₂ hsound₁ hsound₂ h

/-- Behind declarations that bind what they need, names are read as what they are written for. -/
theorem opensAs_write {outer : Bindings} {declared : List (Text × Text)}
    (hdeclared : Declare outer b declared) (hnodup : (attributes.map (·.1)).Nodup) {name : Name} (hname : name.IsSound)
    (hcovers : d.Covers name) :
    OpensAs (.initial true) outer (d.write name) (declared ++ d.writeNames attributes) b name
      attributes where
  undeclared := rfl
  nodup := by
    rw [List.map_append, List.nodup_append]
    refine ⟨hdeclared.nodup, writeNames_nodup hb hsound hnodup, ?_⟩
    rintro _ hmem _ hmem' rfl
    obtain ⟨entry, hentry, hkey⟩ := List.mem_map.1 hmem
    obtain ⟨entry', hentry', hkey'⟩ := List.mem_map.1 hmem'
    have hnone := declaredPrefix?_writeNames hb hsound hentry'
    rw [hkey', ← hkey] at hnone
    simpa [hnone] using hdeclared.isSome entry hentry
  declares := by
    rw [show (Definitions.initial true).namespaces = true from rfl, declare_append hdeclared.declares]
    exact declare_of_none fun entry hentry => declaredPrefix?_writeNames hb hsound hentry
  named := by
    have hns : (Definitions.initial true).namespaces = true := rfl
    rw [if_pos hns, named_of_declared hdeclared.isSome, elementName_write hb hcovers hname]
    exact ⟨named_writeNames hb hsound (by simpa using hnodup), rfl⟩

end Attributes

end BundleHook.Markup
