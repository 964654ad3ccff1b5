import BundleHook.Proofs.Tree.Linkless

/-!
# Plain projects

A project is plain when its tree is as a file system has it, has no links, and has no names that a
key cannot spell. Writing keeps a project plain.
-/

namespace BundleHook

open Glob (pathAt)

/-- A name that a file system can have and that a key spells as it is: there is no pair of dots in
it and no colon. -/
structure Path.IsPlain (name : Text) : Prop where
  isStep : IsStep name
  noSlash : '/' ∉ name
  noColon : ':' ∉ name
  noNull : '\x00' ∉ name
  noDots : ¬upName <:+: name
  isShort : Tree.octetCount name ≤ Tree.nameLimit

instance (name : Text) : Decidable (Path.IsPlain name) :=
  decidable_of_iff (Path.IsStep name ∧ '/' ∉ name ∧ ':' ∉ name ∧ '\x00' ∉ name ∧
      ¬Text.has Path.upName name = true ∧ Tree.octetCount name ≤ Tree.nameLimit)
    ⟨fun ⟨isStep, noSlash, noColon, noNull, noDots, isShort⟩ =>
        ⟨isStep, noSlash, noColon, noNull, mt Text.has_iff.2 noDots, isShort⟩,
      fun h => ⟨h.isStep, h.noSlash, h.noColon, h.noNull, mt Text.has_iff.1 h.noDots, h.isShort⟩⟩

theorem Path.IsPlain.isProper {name : Text} (h : Path.IsPlain name) : Path.IsProper name :=
  ⟨h.isStep, h.noSlash, h.isShort⟩

namespace Tree

/-- The tree below a root is as a file system has it, without links and with plain names only. -/
structure Plain (t : Tree) (root : Path) : Prop where
  lookRoot : t.look root = .ok (.directory root)
  unique : (t.entries.map Prod.fst).Nodup
  noLink : ∀ names target, t.entry? (pathAt root names) ≠ some (.link target)
  names : ∀ names entry, t.entry? (pathAt root names) = some entry →
    ∀ name ∈ names, Path.IsPlain name
  parent : ∀ names name entry, t.entry? (pathAt root (names ++ [name])) = some entry →
    t.entry? (pathAt root names) = some .directory

theorem Plain.linkless {t : Tree} {root : Path} (h : t.Plain root) : t.Linkless root where
  lookRoot := h.lookRoot
  unique := h.unique
  noLink := h.noLink
  names names entry hentry name hname := (h.names names entry hentry name hname).isProper
  parent := h.parent

namespace Plain

variable {t : Tree} {root : Path} (h : t.Plain root)

include h

theorem solid_root : t.Solid root := h.linkless.solid_root

/-- What stands below the root stands below directories. -/
theorem directory_of_append {names more : List Text} {entry : Entry} (hmore : more ≠ [])
    (hentry : t.entry? (pathAt root (names ++ more)) = some entry) :
    t.entry? (pathAt root names) = some .directory :=
  h.linkless.directory_of_append hmore hentry

/-! ### Looking for a path -/

section Looking

variable {names : List Text}

theorem look_eq_longName_iff (hnames : ∀ name ∈ names, Path.IsPlain name) :
    t.look (pathAt root names) = .error .longName ↔
      pathLimit ≤ octetCount (pathAt root names).text :=
  h.linkless.look_eq_longName_iff (fun name hname => (hnames name hname).isStep)
    fun name hname => (hnames name hname).isShort

/-- Looking for a path below the root arrives nowhere else. -/
theorem found_of_look (hnames : ∀ name ∈ names, Path.IsPlain name) {arrival : Arrival}
    (hlook : t.look (pathAt root names) = .ok arrival) :
    arrival.path = pathAt root names ∧ t.Found arrival :=
  h.linkless.found_of_look (fun name hname => (hnames name hname).isStep) hlook

end Looking

/-! ### Setting an entry -/

/-- A project stays plain when a plain name in a directory gets an entry that is no link. -/
theorem put {names : List Text} {name : Text} {entry : Entry} (hname : Path.IsPlain name)
    (habove : t.entry? (pathAt root names) = some .directory)
    (hold : t.entry? (pathAt root (names ++ [name])) ≠ some .directory)
    (hlink : ∀ target, entry ≠ .link target) :
    (t.put (pathAt root (names ++ [name])) entry).Plain root := by
  have hput := h.linkless.put hname.isProper habove hold hlink
  have htop : pathAt root (names ++ [name]) ≠ .top := by
    rw [← child_pathAt]
    exact Path.child_ne_top _ name
  refine ⟨hput.lookRoot, hput.unique, hput.noLink, ?_, hput.parent⟩
  intro others other hother n hn
  rw [entry?_put htop] at hother
  by_cases heq : pathAt root others = pathAt root (names ++ [name])
  · rw [pathAt_inj] at heq
    subst heq
    rcases List.mem_append.1 hn with hn | hn
    · exact h.names names _ habove n hn
    · rwa [List.mem_singleton.1 hn]
  · rw [if_neg heq] at hother
    exact h.names others other hother n hn

end Plain

end Tree

end BundleHook
