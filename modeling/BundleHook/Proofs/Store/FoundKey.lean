import Mathlib.Data.List.Flatten
import BundleHook.Proofs.Store.NewContents
import BundleHook.Proofs.Store.PlainKey

/-!
# Keys of files that are found

The key of a file that has been found is made of the names on the way to it, and is cleaned name by
name when it is read. In a project without links the path that it means then is worked out from the
names alone, and is the same in every tree that the project may become.

* `Store.Unlinked` — a project without links;
* `Store.Points` — a key of names that a project has, with the name of a file behind them;
* `Points.lands` — where it leads;
* `Points.read_extends`, `Points.has_extends` — new entries elsewhere make no difference to it.
-/

namespace BundleHook

open Glob (pathAt)

namespace Tree

theorem octetCount_le_of_sublist {s t : Text} (h : s.Sublist t) : octetCount s ≤ octetCount t :=
  (h.flatMap Utf8.octetsOf).length_le

end Tree

namespace Path

/-- The path at the end of some names, with every way back up taken. -/
def onward (here : Path) (names : List Text) : Path :=
  names.foldl (fun p name => if name = upName then p.parent else p.child name) here

theorem onward_append (here : Path) (names more : List Text) :
    here.onward (names ++ more) = (here.onward names).onward more :=
  List.foldl_append

theorem onward_of_steps {names : List Text} (h : ∀ name ∈ names, name ≠ upName) (here : Path) :
    here.onward names = ⟨here.names ++ names⟩ := by
  induction names generalizing here with
  | nil => simp [onward]
  | cons name names ih =>
      obtain ⟨hname, hnames⟩ := List.forall_mem_cons.1 h
      have hstep : here.onward (name :: names) = (here.child name).onward names := by
        simp [onward, hname]
      rw [hstep, ih hnames]
      simp [child]

/-- Every name of the path is one of those it was worked out from. -/
theorem mem_onward {here : Path} {names : List Text} {name : Text}
    (h : name ∈ (here.onward names).names) :
    name ∈ here.names ∨ name ∈ names ∧ name ≠ upName := by
  induction names using List.reverseRecOn with
  | nil => exact .inl h
  | append_singleton names last ih =>
      rw [onward_append] at h
      by_cases hup : last = upName
      · have hparent : (here.onward names).onward [last] = (here.onward names).parent := by
          simp [onward, hup]
        rw [hparent] at h
        refine (ih (List.dropLast_subset _ h)).imp_right fun hmem => ⟨?_, hmem.2⟩
        exact List.mem_append_left _ hmem.1
      · have hchild : (here.onward names).onward [last] = (here.onward names).child last := by
          simp [onward, hup]
        rw [hchild] at h
        rcases List.mem_append.1 h with h | h
        · refine (ih h).imp_right fun hmem => ⟨?_, hmem.2⟩
          exact List.mem_append_left _ hmem.1
        · rw [List.mem_singleton.1 h]
          exact .inr ⟨by simp, hup⟩

end Path

/-- Without any links a way leads where its names say. -/
theorem Tree.follow_of_noLinks {t : Tree} (h : ∀ p target, t.entry? p ≠ some (.link target))
    {names : List Text} (hnames : ∀ name ∈ names, Path.staysPut name = false) (fresh : List Path)
    (here : Path) : t.follow fresh here names = .plain (here.onward names) := by
  induction names generalizing here with
  | nil =>
      rw [follow]
      rfl
  | cons name names ih =>
      obtain ⟨hname, hothers⟩ := List.forall_mem_cons.1 hnames
      by_cases hup : name = Path.upName
      · subst hup
        rw [follow, if_neg (by decide), if_pos rfl, ih hothers]
        simp [Path.onward]
      · rw [follow_of_step ⟨hname, hup⟩ (h _), ih hothers]
        simp [Path.onward, hup]

namespace Store

/-! ## Cleaned names -/

/-- A name without pairs of dots and without colons. -/
def cleanName (name : Text) : Text := Text.without [':'] (Text.without Path.upName name)

theorem cleanName_sublist (name : Text) : (cleanName name).Sublist name :=
  (Text.without_sublist _ _).trans (Text.without_sublist _ _)

theorem cleanName_of_isPlain {name : Text} (h : Path.IsPlain name) : cleanName name = name := by
  have hcolon : ¬[':'] <:+: name := fun hcolon => h.noColon (hcolon.subset List.mem_cons_self)
  rw [cleanName, Text.without_of_not_infix h.noDots, Text.without_of_not_infix hcolon]

/-- Names that make up a key. The first one stays as it is when the key is cleaned. -/
structure Composes (names : List Text) : Prop where
  isProper : ∀ name ∈ names, Path.IsProper name
  first : ∃ first others, names = first :: others ∧ Path.IsPlain first ∧ first.head? ≠ some '\\'

/-- The names that a key means, made of the cleaned names. -/
def meantNames (names : List Text) : List Text :=
  (names.map cleanName).filter fun name => !Path.staysPut name

theorem mem_meantNames {names : List Text} {meant : Text} (h : meant ∈ meantNames names) :
    Path.staysPut meant = false ∧ ∃ name ∈ names, meant = cleanName name := by
  obtain ⟨hmem, hstays⟩ := List.mem_filter.1 h
  obtain ⟨name, hname, rfl⟩ := List.mem_map.1 hmem
  exact ⟨by simpa using hstays, name, hname, rfl⟩

theorem meantNames_append_plain (above : List Text) {last : Text} (h : Path.IsPlain last) :
    meantNames (above ++ [last]) = meantNames above ++ [last] := by
  simp [meantNames, cleanName_of_isPlain h, h.isStep.1]

section Composed

variable {names : List Text} (h : Composes names)

include h

theorem Composes.ne_nil : names ≠ [] := by
  obtain ⟨first, others, rfl, -⟩ := h.first
  exact List.cons_ne_nil first others

theorem cleanKey_composed :
    cleanKey (keyOf names).toList = Text.join ['/'] (names.map cleanName) := by
  obtain ⟨first, others, hnames, hfirst, hback⟩ := h.first
  obtain ⟨c, rest, hjoin, hc⟩ : ∃ c rest, Text.join ['/'] names = c :: rest ∧
      isSlash c = false := by
    cases first with
    | nil => cases hfirst.isStep.1
    | cons c first =>
        have hslash : c ≠ '/' := fun heq => hfirst.noSlash (heq ▸ List.mem_cons_self)
        have hback : c ≠ '\\' := fun heq => hback (by rw [heq]; rfl)
        refine ⟨c, (Text.join ['/'] names).tail, ?_, by simp [isSlash, hslash, hback]⟩
        rw [hnames]
        cases others <;> rfl
  have hstart : (Text.join ['/'] names).dropWhile isSlash = Text.join ['/'] names := by
    rw [hjoin, List.dropWhile_cons, hc]
    rfl
  rw [cleanKey, keyOf, String.toList_ofList, hstart, Text.without_join (by decide) (by decide),
    Text.without_join (by decide) (by decide), List.map_map]
  rfl

theorem meantPath_composed (store : Store) :
    store.meantPath (keyOf names) = ⟨store.root.names ++ meantNames names⟩ := by
  have hsplit : Text.splitOn '/' (Text.join ['/'] (names.map cleanName)) = names.map cleanName := by
    refine Text.splitOn_join (by simpa using h.ne_nil) fun cleaned hcleaned hslash => ?_
    obtain ⟨name, hname, rfl⟩ := List.mem_map.1 hcleaned
    exact (h.isProper name hname).noSlash ((cleanName_sublist name).subset hslash)
  have habsolute : Path.isAbsolute (Text.join ['/'] (names.map cleanName)) = false := by
    obtain ⟨first, others, rfl, hfirst, -⟩ := h.first
    rw [List.map_cons, cleanName_of_isPlain hfirst]
    cases first with
    | nil => cases hfirst.isStep.1
    | cons c first =>
        have hslash : c ≠ '/' := fun heq => hfirst.noSlash (heq ▸ List.mem_cons_self)
        cases others <;> simp [Path.isAbsolute, Text.join, hslash]
  rw [meantPath, cleanKey_composed h, Path.ofText, Path.startOf, habsolute, Path.namesOf, hsplit]
  rfl

theorem isShort_meantNames {meant : Text} (hmeant : meant ∈ meantNames names) :
    Tree.octetCount meant ≤ Tree.nameLimit := by
  obtain ⟨-, name, hname, rfl⟩ := mem_meantNames hmeant
  have hle := Tree.octetCount_le_of_sublist (cleanName_sublist name)
  exact Nat.le_trans hle (h.isProper name hname).isShort

end Composed

/-! ## Where a key leads -/

/-- Either there are no links at all, or the names are cleaned to none that leads back up. -/
def Keeps (t : Tree) (names : List Text) : Prop :=
  (∀ p target, t.entry? p ≠ some (.link target)) ∨ ∀ name ∈ names, cleanName name ≠ Path.upName

theorem Composes.append_plain {above : List Text} (h : Composes above) {last : Text}
    (hlast : Path.IsPlain last) : Composes (above ++ [last]) where
  isProper := List.forall_mem_append.2 ⟨h.isProper, List.forall_mem_singleton.2 hlast.isProper⟩
  first := by
    obtain ⟨first, others, rfl, hfirst⟩ := h.first
    exact ⟨first, others ++ [last], rfl, hfirst⟩

theorem Keeps.append_plain {t : Tree} {above : List Text} (h : Keeps t above) {last : Text}
    (hlast : Path.IsPlain last) : Keeps t (above ++ [last]) := by
  refine h.imp_right fun hup => List.forall_mem_append.2 ⟨hup, List.forall_mem_singleton.2 ?_⟩
  rw [cleanName_of_isPlain hlast]
  exact hlast.isStep.2

/-- The project has no links. Elsewhere there are none either, or no name in the project is cleaned to
one that leads back up and might lead to them. -/
structure Unlinked (t : Tree) (root : Path) : Prop where
  linkless : t.Linkless root
  enclosed : (∀ p target, t.entry? p ≠ some (.link target)) ∨
    ∀ names entry, t.entry? (pathAt root names) = some entry →
      ∀ name ∈ names, cleanName name ≠ Path.upName

theorem Unlinked.keeps {t : Tree} {root : Path} (h : Unlinked t root) {names : List Text}
    {entry : Entry} (hentry : t.entry? (pathAt root names) = some entry) : Keeps t names :=
  h.enclosed.imp_right fun henclosed => henclosed names entry hentry

theorem unlinked_of_plain {t : Tree} {root : Path} (h : t.Plain root) : Unlinked t root where
  linkless := h.linkless
  enclosed := .inr fun names entry hentry name hname => by
    have hplain := h.names names entry hentry name hname
    rw [cleanName_of_isPlain hplain]
    exact hplain.isStep.2

theorem resolve_meantPath {store : Store} {t : Tree} (h : t.Linkless store.root)
    {names : List Text} (hcomposes : Composes names) (hkeeps : Keeps t names) :
    t.resolve (store.meantPath (keyOf names)) = .ok (store.root.onward (meantNames names)) := by
  rw [meantPath_composed hcomposes]
  rcases hkeeps with hnone | hup
  · have hstays (name : Text) (hname : name ∈ store.root.names ++ meantNames names) :
        Path.staysPut name = false := by
      rcases List.mem_append.1 hname with hname | hname
      · exact (h.solid_root.isStep name hname).1
      · exact (mem_meantNames hname).1
    have hroot : Path.top.onward store.root.names = store.root :=
      Path.onward_of_steps (fun name hname => (h.solid_root.isStep name hname).2) .top
    unfold Tree.resolve
    rw [Tree.follow_of_noLinks hnone hstays, Path.onward_append, hroot]
  · have hsteps (meant : Text) (hmeant : meant ∈ meantNames names) : Path.IsStep meant := by
      obtain ⟨hstays, name, hname, rfl⟩ := mem_meantNames hmeant
      exact ⟨hstays, hup name hname⟩
    rw [Path.onward_of_steps fun meant hmeant => (hsteps meant hmeant).2]
    exact Tree.resolve_of_linkFree (h.linkFree hsteps)

/-- Where the key of a file can lead: to the root, or to a name with the name of the file at its
end. In a directory below the root all names are short. -/
inductive Lands (root : Path) (last : Text) : Path → Prop where
  | root : Lands root last root
  | below {above : List Text} {name : Text} (isStep : ∀ n ∈ above ++ [name], Path.IsStep n)
      (isShort : above = [] ∨ ∀ n ∈ above ++ [name], Tree.octetCount n ≤ Tree.nameLimit)
      (ends : last <:+ name) : Lands root last (pathAt root (above ++ [name]))

/-- A text that ends with a plain name is a step. -/
theorem isStep_of_suffix {last name : Text} (hlast : Path.IsPlain last) (h : last <:+ name) :
    Path.IsStep name := by
  obtain ⟨before, rfl⟩ := h
  have hne : last ≠ [] := by
    rintro rfl
    cases hlast.isStep.1
  constructor
  · rw [Path.staysPut, Bool.or_eq_false_iff]
    refine ⟨by simp [hne], decide_eq_false fun heq => ?_⟩
    rcases List.append_eq_singleton_iff.1 heq with ⟨rfl, hdot⟩ | ⟨-, hnil⟩
    · rw [hdot] at hlast
      cases hlast.isStep.1
    · exact hne hnil
  · intro heq
    rcases List.append_eq_cons_iff.1 heq with ⟨rfl, hup⟩ | ⟨rest, rfl, hdot⟩
    · exact hlast.isStep.2 hup
    · rcases List.append_eq_singleton_iff.1 hdot.symm with ⟨-, hdot⟩ | ⟨-, hnil⟩
      · rw [hdot] at hlast
        cases hlast.isStep.1
      · exact hne hnil

/-- A key that a project has for a file of a name: names that the project has, and this name. -/
inductive Points (t : Tree) (last : Text) : String → Prop where
  | mk (above : List Text) (composes : Composes (above ++ [last]))
      (keeps : Keeps t (above ++ [last])) (isPlain : Path.IsPlain last)
      (noBackslash : '\\' ∉ last) : Points t last (keyOf (above ++ [last]))

theorem pathOf_of_resolve {store : Store} {t : Tree} {key : String} {q : Path}
    (h : t.resolve (store.meantPath key) = .ok q) :
    store.pathOf t key =
      if (cleanKey key.toList).contains '\x00' then .error .nullCharacter
      else if store.root.reaches q then .ok q
      else .ok (Path.ofText store.root (flatName key)) := by
  unfold meantPath at h
  simp only [pathOf, h]
  rfl

section Landing

variable {store : Store} {t : Tree} (h : t.Linkless store.root) {above : List Text} {last : Text}

include h

/-- A meant path that does not leave the root. -/
theorem lands_onward (hcomposes : Composes (above ++ [last])) (hplain : Path.IsPlain last)
    (hreaches : store.root.reaches (store.root.onward (meantNames (above ++ [last]))) = true) :
    Lands store.root last (store.root.onward (meantNames (above ++ [last]))) := by
  have hchild : store.root.onward (meantNames (above ++ [last])) =
      (store.root.onward (meantNames above)).child last := by
    rw [meantNames_append_plain above hplain, Path.onward_append]
    simp [Path.onward, hplain.isStep.2]
  obtain ⟨rest, hrest⟩ := List.isPrefixOf_iff_prefix.1 hreaches
  have hp : store.root.onward (meantNames (above ++ [last])) = pathAt store.root rest :=
    congrArg Path.mk hrest.symm
  rcases List.eq_nil_or_concat rest with rfl | ⟨between, name, rfl⟩
  · rw [hp, Tree.pathAt_nil]
    exact .root
  rw [List.concat_eq_append] at hrest hp
  have hname : name = last := by
    rw [hchild, Path.child, ← List.append_assoc] at hrest
    exact List.singleton_inj.1 (List.append_inj' hrest rfl).2
  -- Every name comes from the root or from the key, and no way back up is left.
  have hmem (n : Text) (hn : n ∈ between ++ [name]) :
      n ∈ store.root.names ∨ n ∈ meantNames (above ++ [last]) ∧ n ≠ Path.upName := by
    refine Path.mem_onward (?_ : n ∈ (store.root.onward (meantNames (above ++ [last]))).names)
    rw [hp]
    exact List.mem_append_right _ hn
  rw [hp]
  refine .below (fun n hn => ?_) (.inr fun n hn => ?_) (hname ▸ List.suffix_refl name)
  · rcases hmem n hn with hroot | ⟨hmeant, hup⟩
    · exact h.solid_root.isStep n hroot
    · exact ⟨(mem_meantNames hmeant).1, hup⟩
  · rcases hmem n hn with hroot | ⟨hmeant, -⟩
    · exact h.solid_root.isShort n hroot
    · exact isShort_meantNames hcomposes hmeant

omit h in
/-- The key as a single name. -/
theorem lands_flat (hcomposes : Composes (above ++ [last])) (hplain : Path.IsPlain last)
    (hback : '\\' ∉ last) :
    Lands store.root last (Path.ofText store.root (flatName (keyOf (above ++ [last])))) := by
  have hends : last <:+ flatName (keyOf (above ++ [last])) := by
    have hclean : last <:+ cleanKey (keyOf (above ++ [last])).toList := by
      rw [cleanKey_composed hcomposes, List.map_append, List.map_singleton,
        cleanName_of_isPlain hplain]
      by_cases hnil : above = []
      · subst hnil
        exact List.suffix_refl last
      · rw [Text.join_append (by simpa using hnil) (by simp)]
        exact List.suffix_append _ last
    have hflat : flatKey last = last := by
      refine (List.map_congr_left fun c hc => ?_).trans (List.map_id last)
      have hslash : c ≠ '/' := fun heq => hplain.noSlash (heq ▸ hc)
      have hback : c ≠ '\\' := fun heq => hback (heq ▸ hc)
      simp [isSlash, hslash, hback]
    have hmap : flatKey last <:+ flatName (keyOf (above ++ [last])) := hclean.map _
    rwa [hflat] at hmap
  have hslash : '/' ∉ flatName (keyOf (above ++ [last])) := not_mem_flatKey _
  have hstep := isStep_of_suffix hplain hends
  rw [Path.ofText_of_not_mem hslash, if_neg (by simp [hstep.1])]
  exact Lands.below (List.forall_mem_singleton.2 hstep) (.inl rfl) hends

variable {key : String} (hpoints : Points t last key)

include hpoints

theorem Points.lands {p : Path} (hpath : store.pathOf t key = .ok p) :
    Lands store.root last p := by
  obtain ⟨above, hcomposes, hkeeps, hplain, hback⟩ := hpoints
  rw [pathOf_of_resolve (resolve_meantPath h hcomposes hkeeps)] at hpath
  split at hpath
  · cases hpath
  split at hpath
  · next hreaches =>
    obtain rfl := Except.ok.inj hpath
    exact lands_onward h hcomposes hplain hreaches
  · obtain rfl := Except.ok.inj hpath
    exact lands_flat hcomposes hplain hback

/-- The file that the key leads to has the name of the file at its end. -/
theorem Points.suffix_of_finds {q : Path} {held : Contents} (hfinds : store.Finds t key q held) :
    last <:+ q.name := by
  obtain ⟨p, hpath, hlook⟩ := hfinds
  cases hpoints.lands h hpath with
  | root =>
      rw [h.lookRoot] at hlook
      cases hlook
  | @below above name hsteps _ hends =>
      obtain rfl : q = pathAt store.root (above ++ [name]) := (h.found_of_look hsteps hlook).1
      simpa [Path.name, pathAt] using hends

end Landing

/-! ## New entries -/

section Absent

variable {store : Store} {t : Tree} {key : String} {p : Path} (hpath : store.pathOf t key = .ok p)
  (h : IsAbsent (t.look p))

include hpath h

theorem has_of_isAbsent : store.has t key = .ok false := by
  rw [has_of_pathOf hpath]
  rcases hlook : t.look p with obstacle | (_ | _ | _) <;> rw [hlook] at h
  · cases obstacle <;> first | rfl | exact absurd rfl h
  · exact h.elim
  · exact h.elim

theorem read_of_isAbsent : store.read t key = .error (.unknownKey key) := by
  rw [read_of_pathOf hpath]
  rcases hlook : t.look p with obstacle | (_ | _ | _) <;> rw [hlook] at h
  · cases obstacle <;> first | rfl | exact absurd rfl h
  · exact h.elim

end Absent

section Extending

variable {store : Store} {t after : Tree} (h : t.Linkless store.root)
  (hafter : after.Linkless store.root) {fresh : List Text}
  (hextends : Tree.Extends store.root fresh t after) {last : Text} {key : String}

include hextends in
theorem Points.of_extends (hpoints : Points t last key) : Points after last key := by
  obtain ⟨above, hcomposes, hkeeps, hplain, hback⟩ := hpoints
  exact ⟨above, hcomposes, hkeeps.imp_left hextends.noLink, hplain, hback⟩

include h hafter hextends

/-- Where a key can lead, new entries elsewhere make no difference but to what keeps a file from
being there. -/
theorem Lands.look_extends {p : Path} (hlands : Lands store.root last p)
    (haway : ∀ name ∈ fresh, ¬last <:+ name) :
    after.look p = t.look p ∨ IsAbsent (t.look p) ∧ IsAbsent (after.look p) := by
  cases hlands with
  | root => exact .inl (hafter.lookRoot.trans h.lookRoot.symm)
  | @below above name hsteps hshort hends =>
      have hoff : ¬above ++ [name] <+: fresh :=
        fun hpre => haway name (hpre.subset (by simp)) hends
      have hentry := hextends.entry?_off_way hoff
      by_cases hlong : Tree.pathLimit ≤ Tree.octetCount (pathAt store.root (above ++ [name])).text
      · exact .inl (by rw [Tree.look, Tree.look, if_pos hlong, if_pos hlong])
      have hnear := Nat.lt_of_not_le hlong
      by_cases hall : ∀ n ∈ above ++ [name], Tree.octetCount n ≤ Tree.nameLimit
      · rcases hold : t.entry? (pathAt store.root (above ++ [name])) with _ | entry
        · rw [hold] at hentry
          exact .inr ⟨h.isAbsent_look hsteps hall hold hnear,
            hafter.isAbsent_look hsteps hall hentry hnear⟩
        · rw [hold] at hentry
          exact .inl ((hafter.look_of_entry hentry hnear).trans
            (h.look_of_entry hold hnear).symm)
      · -- Only a name directly below the root can be too long.
        obtain rfl := hshort.resolve_right hall
        have htoo : Tree.nameLimit < Tree.octetCount name := by
          rw [List.nil_append, List.forall_mem_singleton] at hall
          exact Nat.lt_of_not_le hall
        have hstep : Path.IsStep name := hsteps name (by simp)
        rw [← Tree.child_pathAt, Tree.pathAt_nil] at hnear ⊢
        rw [Tree.look_child h.solid_root hnear, Tree.look_child hafter.solid_root hnear,
          Tree.walk_of_long hstep htoo, Tree.walk_of_long hstep htoo]
        exact .inl rfl

variable (hpoints : Points t last key)

include hpoints

theorem Points.pathOf_extends : store.pathOf after key = store.pathOf t key := by
  obtain ⟨above, hcomposes, hkeeps, -⟩ := hpoints
  rw [pathOf_of_resolve (resolve_meantPath h hcomposes hkeeps),
    pathOf_of_resolve (resolve_meantPath hafter hcomposes (hkeeps.imp_left hextends.noLink))]

variable (haway : ∀ name ∈ fresh, ¬last <:+ name)

include haway

theorem Points.has_extends : store.has after key = store.has t key := by
  have hsame := hpoints.pathOf_extends h hafter hextends
  rcases hpath : store.pathOf t key with fault | p
  · rw [has_of_pathOf_error hpath, has_of_pathOf_error (hsame.trans hpath)]
  rcases (hpoints.lands h hpath).look_extends h hafter hextends haway with hlook | ⟨hnone, hstill⟩
  · rw [has_of_pathOf hpath, has_of_pathOf (hsame.trans hpath), hlook]
  · rw [has_of_isAbsent hpath hnone, has_of_isAbsent (hsame.trans hpath) hstill]

theorem Points.read_extends : store.read after key = store.read t key := by
  have hsame := hpoints.pathOf_extends h hafter hextends
  rcases hpath : store.pathOf t key with fault | p
  · rw [read_of_pathOf_error hpath, read_of_pathOf_error (hsame.trans hpath)]
  rcases (hpoints.lands h hpath).look_extends h hafter hextends haway with hlook | ⟨hnone, hstill⟩
  · rw [read_of_pathOf hpath, read_of_pathOf (hsame.trans hpath), hlook]
  · rw [read_of_isAbsent hpath hnone, read_of_isAbsent (hsame.trans hpath) hstill]

/-- A file that the key leads to was there before. -/
theorem Points.finds_extends {q : Path} {held : Contents} (hfinds : store.Finds after key q held) :
    store.Finds t key q held := by
  obtain ⟨p, hpath, hlook⟩ := hfinds
  rw [hpoints.pathOf_extends h hafter hextends] at hpath
  rcases (hpoints.lands h hpath).look_extends h hafter hextends haway with hsame | ⟨-, hstill⟩
  · exact ⟨p, hpath, hsame.symm.trans hlook⟩
  · rw [hlook] at hstill
    exact hstill.elim

end Extending

/-- A project stays without links when entries are added on the way to plain names. -/
theorem Unlinked.of_extends {t after : Tree} {root : Path} (h : Unlinked t root)
    (hafter : after.Linkless root) {fresh : List Text} (hextends : Tree.Extends root fresh t after)
    (hfresh : ∀ name ∈ fresh, Path.IsPlain name) : Unlinked after root where
  linkless := hafter
  enclosed := by
    refine h.enclosed.imp hextends.noLink fun henclosed names entry hentry name hname => ?_
    rcases hold : t.entry? (pathAt root names) with _ | old
    · obtain ⟨⟨before, hbefore, heq⟩, -⟩ := hextends.new_of_none hold hentry
      obtain rfl := Tree.pathAt_inj.1 heq
      have hplain := hfresh name (hbefore.subset hname)
      rw [cleanName_of_isPlain hplain]
      exact hplain.isStep.2
    · exact henclosed names old hold name hname

/-- So does one whose files get new contents. -/
theorem Unlinked.overwrite {t : Tree} {root : Path} (h : Unlinked t root) {news : News}
    (hnews : t.HasFilesFor news) : Unlinked (t.overwrite news) root where
  linkless := h.linkless.overwrite hnews
  enclosed := by
    refine h.enclosed.imp (fun hnone p target hlink => ?_) fun henclosed names entry hentry => ?_
    · exact hnone p target ((Tree.entry?_overwrite_link_iff hnews p target).1 hlink)
    · rw [Tree.entry?_overwrite hnews] at hentry
      rcases hfile : news (pathAt root names) with _ | contents
      · rw [hfile] at hentry
        exact henclosed names entry hentry
      · obtain ⟨held, hheld⟩ :=
          Option.isSome_iff_exists.1 (hnews (pathAt root names) (by simp [hfile]))
        exact henclosed names _ (Tree.fileAt_eq_some.1 hheld)

end Store

end BundleHook
