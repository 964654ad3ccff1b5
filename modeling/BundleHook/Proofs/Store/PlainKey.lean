import BundleHook.Proofs.Store.Fault
import BundleHook.Proofs.Store.Key
import BundleHook.Proofs.Tree.Growth
import BundleHook.Proofs.Tree.Way

/-!
# Keys of a plain project

In a plain project a key made of plain names means the path of these names. Reading it finds what
stands there, and writing it sets the one file and makes the directories on the way to it.
-/

namespace BundleHook

open Glob (pathAt)

namespace Store

/-- The key of some names. -/
def keyOf (names : List Text) : String := String.ofList (Text.join ['/'] names)

/-- The path of a key that is taken as it stands. -/
def placeOf (store : Store) (key : String) : Path := Path.ofText store.root key.toList

/-- Names that a key spells as they are; a backslash at its start would be cut off. -/
structure Spells (names : List Text) : Prop where
  isPlain : ∀ name ∈ names, Path.IsPlain name
  noBackslash : ∀ first others, names = first :: others → first.head? ≠ some '\\'

theorem not_mem_join_names {c : Char} {names : List Text} (hslash : c ≠ '/')
    (hnames : ∀ name ∈ names, c ∉ name) : c ∉ Text.join ['/'] names := by
  intro hc
  rcases Text.mem_join hc with hglue | ⟨name, hname, hc⟩
  · exact hslash (List.mem_singleton.1 hglue)
  · exact hnames name hname hc

/-- The key of names that lead down, taken as it stands, is the path of these names. -/
theorem placeOf_of_names {names : List Text} (hne : names ≠ [])
    (hsteps : ∀ name ∈ names, Path.IsStep name) (hslash : ∀ name ∈ names, '/' ∉ name)
    (store : Store) : store.placeOf (keyOf names) = pathAt store.root names := by
  have hsplit : Text.splitOn '/' (Text.join ['/'] names) = names := Text.splitOn_join hne hslash
  have habsolute : Path.isAbsolute (Text.join ['/'] names) = false := by
    obtain ⟨first, others, rfl⟩ := List.exists_cons_of_ne_nil hne
    have hstays := (hsteps first List.mem_cons_self).1
    have hfirst := hslash first List.mem_cons_self
    cases first with
    | nil => cases hstays
    | cons c first =>
        have hc : c ≠ '/' := fun heq => hfirst (heq ▸ List.mem_cons_self)
        cases others <;> simp [Path.isAbsolute, Text.join, hc]
  have hnames : Path.namesOf (Text.join ['/'] names) = names := by
    rw [Path.namesOf, hsplit, List.filter_eq_self]
    intro name hname
    simp [(hsteps name hname).1]
  rw [placeOf, keyOf, String.toList_ofList, Path.ofText, Path.startOf, habsolute, hnames]
  rfl

section Spelling

variable {names : List Text} (h : Spells names) (hne : names ≠ [])

include h hne

theorem splitOn_join_names : Text.splitOn '/' (Text.join ['/'] names) = names :=
  Text.splitOn_join hne fun name hname => (h.isPlain name hname).noSlash

/-- A spelled key begins with no slash of either kind. -/
theorem head_join_names : ∃ c rest, Text.join ['/'] names = c :: rest ∧ isSlash c = false := by
  obtain ⟨first, others, rfl⟩ := List.exists_cons_of_ne_nil hne
  have hfirst := h.isPlain first List.mem_cons_self
  have hback := h.noBackslash first others rfl
  have hstays := hfirst.isStep.1
  cases first with
  | nil => cases hstays
  | cons c first =>
      have hslash : c ≠ '/' := fun heq => hfirst.noSlash (heq ▸ List.mem_cons_self)
      have hback : c ≠ '\\' := fun heq => hback (by rw [heq]; rfl)
      have hc : isSlash c = false := by simp [isSlash, hslash, hback]
      by_cases hnil : others = []
      · subst hnil
        exact ⟨c, first, rfl, hc⟩
      · rw [Text.join_cons hnil]
        exact ⟨c, _, rfl, hc⟩

theorem cleanKey_join_names : cleanKey (Text.join ['/'] names) = Text.join ['/'] names := by
  obtain ⟨c, rest, hjoin, hc⟩ := head_join_names h hne
  have hstart : (Text.join ['/'] names).dropWhile isSlash = Text.join ['/'] names := by
    rw [hjoin, List.dropWhile_cons, hc]
    rfl
  have hdots : ¬Path.upName <:+: Text.join ['/'] names := by
    intro hup
    obtain ⟨part, hpart, hpresent⟩ := @Text.infix_splitOn '/' _ _ (by decide) hup
    rw [splitOn_join_names h hne] at hpart
    exact (h.isPlain part hpart).noDots hpresent
  have hcolon : ¬[':'] <:+: Text.join ['/'] names := by
    intro hpresent
    refine not_mem_join_names (by decide) (fun name hname => (h.isPlain name hname).noColon) ?_
    exact hpresent.subset List.mem_cons_self
  rw [cleanKey, hstart, Text.without_of_not_infix hdots, Text.without_of_not_infix hcolon]

theorem placeOf_keyOf (store : Store) : store.placeOf (keyOf names) = pathAt store.root names :=
  placeOf_of_names hne (fun name hname => (h.isPlain name hname).isStep)
    (fun name hname => (h.isPlain name hname).noSlash) store

theorem meantPath_keyOf (store : Store) :
    store.meantPath (keyOf names) = pathAt store.root names := by
  rw [← placeOf_keyOf h hne, meantPath, placeOf, keyOf, String.toList_ofList,
    cleanKey_join_names h hne]

/-- In a project without links the path of a spelled key is the path of its names. -/
theorem pathOf_keyOf {store : Store} {t : Tree} (hlinkless : t.Linkless store.root) :
    store.pathOf t (keyOf names) = .ok (pathAt store.root names) := by
  have hnull : '\x00' ∉ (keyOf names).toList := by
    rw [keyOf, String.toList_ofList]
    exact not_mem_join_names (by decide) fun name hname => (h.isPlain name hname).noNull
  have hfree := hlinkless.linkFree fun name hname => (h.isPlain name hname).isStep
  rw [pathOf_eq hnull, meantPath_keyOf h hne, Tree.resolve_of_linkFree hfree]
  refine if_pos ?_
  simp [Path.reaches, pathAt, List.isPrefixOf_iff_prefix]

/-! ### Reading and writing a spelled key -/

/-- Whatever is written under a key, directories on the way to its file are added at most, and then it
is refused, or the file is new or there already, and then written over. -/
theorem write_of_linkless {store : Store} {t : Tree} (hlinkless : t.Linkless store.root) :
    (∃ refusal made, made.Linkless store.root ∧ Tree.Extends store.root names t made ∧
        ∀ contents, store.write t (keyOf names) contents = (some refusal, made)) ∨
      Tree.octetCount (pathAt store.root names).text < Tree.pathLimit ∧ ∃ between held,
        between.Linkless store.root ∧ Tree.Extends store.root names t between ∧
          between.fileAt (pathAt store.root names) = some held ∧
          ∀ contents, store.write t (keyOf names) contents =
            (none, between.overwrite (.add .nothing (pathAt store.root names) contents)) := by
  have hproper (name : Text) (hname : name ∈ names) : Path.IsProper name :=
    (h.isPlain name hname).isProper
  obtain ⟨above, name, hnames⟩ : ∃ above name, names = above ++ [name] :=
    ⟨_, _, (List.dropLast_concat_getLast hne).symm⟩
  have hparent : (pathAt store.root names).parent = pathAt store.root above := by
    rw [hnames, Tree.parent_pathAt]
  have habove : above <+: names := hnames ▸ List.prefix_append above [name]
  simp only [write_of_pathOf (pathOf_keyOf h hne hlinkless), hparent]
  rcases hmade : t.addDirectories (pathAt store.root above) with ⟨refusal, made⟩
  obtain ⟨hlinkless', hextends, -⟩ := hlinkless.addDirectories
    (fun n hn => hproper n (habove.subset hn)) hmade
  have hextends := hextends.mono habove
  cases refusal with
  | some refusal => exact .inl ⟨_, made, hlinkless', hextends, fun _ => rfl⟩
  | none =>
      rcases hlinkless'.write hproper with ⟨refusal, hrefused⟩ |
        ⟨hshort, between, held, hbetween, hextends', hfile, hwritten⟩
      · exact .inl ⟨.refused refusal, made, hlinkless', hextends, fun _ => by simp only [hrefused]⟩
      · refine .inr ⟨hshort, between, held, hbetween, hextends.trans hextends', hfile, fun _ => ?_⟩
        simp only [hwritten]

section Short

variable {store : Store} {t : Tree} (hlinkless : t.Linkless store.root)
  (hshort : Tree.octetCount (pathAt store.root names).text < Tree.pathLimit)

include hlinkless hshort

/-- Where a file stands on the way, writing is refused and leaves everything as it is. -/
theorem write_of_blocked (hblocked : t.Blocked store.root names) :
    ∃ fault, ∀ contents, store.write t (keyOf names) contents = (some fault, t) := by
  obtain ⟨above, name, rfl⟩ : ∃ above name, names = above ++ [name] :=
    ⟨_, _, (List.dropLast_concat_getLast hne).symm⟩
  have hshort' : Tree.octetCount (pathAt store.root above).text < Tree.pathLimit :=
    Nat.lt_of_le_of_lt (Tree.octetCount_text_le (by simp [pathAt])) hshort
  obtain ⟨refusal, hrefused⟩ :=
    hlinkless.addDirectories_of_file hshort' (Tree.blocked_append_singleton.1 hblocked)
  refine ⟨.refused refusal, fun contents => ?_⟩
  rw [write_of_pathOf (pathOf_keyOf h hne hlinkless), Tree.parent_pathAt, hrefused]

/-- Writing is refused in no other case, unless a directory stands in the place of the file. -/
theorem blocked_of_write {contents : Contents} {fault : StoreFault} {after : Tree}
    (hdirectory : t.entry? (pathAt store.root names) ≠ some .directory)
    (hwrite : store.write t (keyOf names) contents = (some fault, after)) :
    t.Blocked store.root names := by
  by_contra hfree
  obtain ⟨above, name, rfl⟩ : ∃ above name, names = above ++ [name] :=
    ⟨_, _, (List.dropLast_concat_getLast hne).symm⟩
  have hproper (n : Text) (hn : n ∈ above ++ [name]) : Path.IsProper n := (h.isPlain n hn).isProper
  have hproper' (n : Text) (hn : n ∈ above) : Path.IsProper n := hproper n (by simp [hn])
  have hname := hproper name (by simp)
  have hshort' : Tree.octetCount (pathAt store.root above).text < Tree.pathLimit :=
    Nat.lt_of_le_of_lt (Tree.octetCount_text_le (by simp [pathAt])) hshort
  rw [Tree.blocked_append_singleton, not_or, not_exists] at hfree
  have hmade := hlinkless.addDirectories_of_free hshort' hproper' hfree.1 hfree.2
  rcases hup : t.addDirectories (pathAt store.root above) with ⟨refusal, made⟩
  obtain rfl : refusal = none := by rwa [hup] at hmade
  obtain ⟨hlinkless', hextends, hthere⟩ := hlinkless.addDirectories hproper' hup
  have hoff : ¬above ++ [name] <+: above := by
    intro hle
    have hlength := hle.length_le
    rw [List.length_append, List.length_singleton] at hlength
    omega
  have hlook := hlinkless'.look_below hname.isStep hname.isShort hshort (hthere rfl)
  rw [hextends.entry?_off_way hoff] at hlook
  rw [write_of_pathOf (pathOf_keyOf h hne hlinkless), Tree.parent_pathAt, hup] at hwrite
  rcases hentry : t.entry? (pathAt store.root (above ++ [name])) with _ | (held | _ | target)
  · rw [hentry] at hlook
    simp only [Tree.write, hlook] at hwrite
    cases hwrite
  · rw [hentry] at hlook
    simp only [Tree.write, hlook, Entry.arrival] at hwrite
    cases hwrite
  · exact hdirectory hentry
  · exact hlinkless.noLink _ target hentry

/-- Writing that is refused leaves everything as it is. -/
theorem unchanged_of_refused {contents : Contents} {fault : StoreFault} {made : Tree}
    (hwrite : store.write t (keyOf names) contents = (some fault, made)) : made = t := by
  by_cases hdirectory : t.entry? (pathAt store.root names) = some .directory
  · obtain ⟨above, name, rfl⟩ : ∃ above name, names = above ++ [name] :=
      ⟨_, _, (List.dropLast_concat_getLast hne).symm⟩
    have hshort' : Tree.octetCount (pathAt store.root above).text < Tree.pathLimit :=
      Nat.lt_of_le_of_lt (Tree.octetCount_text_le (by simp [pathAt])) hshort
    have hlook := hlinkless.look_directory (hlinkless.parent above name _ hdirectory) hshort'
    rw [write_of_pathOf (pathOf_keyOf h hne hlinkless), Tree.parent_pathAt,
      Tree.addDirectories_of_look hlook] at hwrite
    simp only [Tree.write, hlinkless.look_directory hdirectory hshort] at hwrite
    exact (Prod.mk.inj hwrite).2.symm
  · obtain ⟨why, hrefused⟩ := write_of_blocked h hne hlinkless hshort
      (blocked_of_write h hne hlinkless hshort hdirectory hwrite)
    exact (Prod.mk.inj (hwrite.symm.trans (hrefused contents))).2

end Short

variable {store : Store} {t : Tree} (hplain : t.Plain store.root)

include hplain

/-- What is read under a key is what the file at its path holds. -/
theorem fileAt_of_read {octets : Contents} (hread : store.read t (keyOf names) = .ok octets) :
    t.fileAt (pathAt store.root names) = some octets := by
  rw [read_of_pathOf (pathOf_keyOf h hne hplain.linkless)] at hread
  split at hread
  · next q held hlook =>
    obtain rfl := Except.ok.inj hread
    obtain ⟨hq, -, hentry⟩ := hplain.found_of_look h.isPlain hlook
    simp only [Arrival.path] at hq
    rw [← hq]
    exact Tree.fileAt_eq_some.2 hentry
  · cases hread
  · cases hread

/-- A file whose path is not too long is read. -/
theorem read_of_fileAt {octets : Contents}
    (hfile : t.fileAt (pathAt store.root names) = some octets)
    (hshort : Tree.octetCount (pathAt store.root names).text < Tree.pathLimit) :
    store.read t (keyOf names) = .ok octets := by
  rw [read_of_pathOf (pathOf_keyOf h hne hplain.linkless),
    hplain.linkless.look_of_entry (Tree.fileAt_eq_some.1 hfile) hshort]
  rfl

/-- Something is there under a key exactly when something stands at its path. -/
theorem has_keyOf :
    store.has t (keyOf names) =
      if Tree.pathLimit ≤ Tree.octetCount (pathAt store.root names).text then
        .error (.refused ⟨.longName, pathAt store.root names⟩)
      else .ok (t.entry? (pathAt store.root names)).isSome := by
  have hlong := hplain.look_eq_longName_iff h.isPlain
  rw [has_of_pathOf (pathOf_keyOf h hne hplain.linkless)]
  split
  · next q hlook =>
    have hshort := Tree.short_of_look hlook
    obtain ⟨hq, -, hentry⟩ := hplain.found_of_look h.isPlain hlook
    simp only [Arrival.path] at hq
    subst hq
    rw [if_neg (Nat.not_le.2 hshort), hentry]
    rfl
  · next arrival hfree hlook =>
    have hshort := Tree.short_of_look hlook
    obtain ⟨hq, hfound⟩ := hplain.found_of_look h.isPlain hlook
    rw [if_neg (Nat.not_le.2 hshort), ← hq]
    cases arrival with
    | directory q => rw [Arrival.path, hfound.entry?]; rfl
    | file q held => rw [Arrival.path, hfound.2]; rfl
    | free q => exact absurd rfl (hfree q)
  · next hlook => rw [if_pos (hlong.1 hlook)]
  · next obstacle hother hlook =>
    have hshort : ¬Tree.pathLimit ≤ Tree.octetCount (pathAt store.root names).text := by
      intro hle
      rw [hlong.2 hle] at hlook
      exact hother (Except.error.inj hlook).symm
    rw [if_neg hshort]
    rcases hentry : t.entry? (pathAt store.root names) with _ | entry
    · rfl
    · rw [hplain.linkless.look_of_entry hentry (Nat.lt_of_not_le hshort)] at hlook
      cases entry <;> cases hlook

/-- Writing under a key changes no other file, and none at all when it is refused. -/
theorem write_keyOf {contents : Contents} {fault : Option StoreFault} {after : Tree}
    (hwrite : store.write t (keyOf names) contents = (fault, after)) :
    after.Plain store.root ∧ Tree.Grows store.root names t after ∧
      ∀ p, after.fileAt p =
        if fault.isNone ∧ p = pathAt store.root names then some contents else t.fileAt p := by
  obtain ⟨above, name, rfl⟩ : ∃ above name, names = above ++ [name] :=
    ⟨_, _, (List.dropLast_concat_getLast hne).symm⟩
  have habove (n : Text) (hn : n ∈ above) : Path.IsPlain n :=
    h.isPlain n (List.mem_append_left _ hn)
  rw [write_of_pathOf (pathOf_keyOf h hne hplain.linkless), Tree.parent_pathAt] at hwrite
  have hadds := t.addsDirectories_addDirectories (pathAt store.root above)
  rcases hmade : t.addDirectories (pathAt store.root above) with ⟨refusal, made⟩
  obtain ⟨hplain', hgrows, -⟩ := hplain.addDirectories_grows habove hmade
  have hgrows := hgrows.mono (List.prefix_append above [name])
  rw [hmade] at hwrite hadds
  cases refusal with
  | some refusal =>
      obtain ⟨rfl, rfl⟩ := Prod.mk.inj hwrite
      exact ⟨hplain', hgrows, fun p => by simpa using hadds.fileAt p⟩
  | none =>
      rcases hwritten : made.write (pathAt store.root (above ++ [name])) contents with
        refusal | written
      · simp only [hwritten] at hwrite
        obtain ⟨rfl, rfl⟩ := Prod.mk.inj hwrite
        exact ⟨hplain', hgrows, fun p => by simpa using hadds.fileAt p⟩
      · simp only [hwritten] at hwrite
        obtain ⟨rfl, rfl⟩ := Prod.mk.inj hwrite
        obtain ⟨hplain'', hgrows', hfiles⟩ := hplain'.write_grows h.isPlain hwritten
        refine ⟨hplain'', hgrows.trans hgrows', fun p => ?_⟩
        rw [hfiles p, hadds.fileAt p]
        simp

end Spelling

end Store

end BundleHook
