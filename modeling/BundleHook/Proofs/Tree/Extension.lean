import BundleHook.Proofs.Tree.Linkless
import BundleHook.Proofs.Tree.Overwriting

/-!
# New entries in a project

Making directories and writing files adds entries to a project without links, all on the way to what
is written, or writes over a file. Off that way everything is as it was.

* `Tree.Extends` — more entries on a way;
* `Linkless.addDirectories`, `Linkless.write` — what a change of the project comes to.
-/

namespace BundleHook

open Glob (pathAt)

namespace Tree

/-- The second tree has more entries, on the way to `fresh`, and none of them is a link. -/
def Extends (root : Path) (fresh : List Text) (t after : Tree) : Prop :=
  ∃ new, after.entries = t.entries ++ new ∧ ∀ place ∈ new,
    (∃ before, before <+: fresh ∧ place.1 = pathAt root before) ∧ ∀ target, place.2 ≠ .link target

namespace Extends

variable {root : Path} {fresh : List Text} {t between after : Tree}

theorem refl (root : Path) (fresh : List Text) (t : Tree) : Extends root fresh t t :=
  ⟨[], (List.append_nil _).symm, List.forall_mem_nil _⟩

theorem trans (h : Extends root fresh t between) (hmore : Extends root fresh between after) :
    Extends root fresh t after := by
  obtain ⟨new, hnew, hway⟩ := h
  obtain ⟨more, hmore, hon⟩ := hmore
  refine ⟨new ++ more, ?_, List.forall_mem_append.2 ⟨hway, hon⟩⟩
  rw [hmore, hnew, List.append_assoc]

theorem mono {more : List Text} (h : Extends root fresh t after) (hmore : fresh <+: more) :
    Extends root more t after := by
  obtain ⟨new, hnew, hway⟩ := h
  refine ⟨new, hnew, fun place hplace => ?_⟩
  obtain ⟨⟨before, hbefore, hp⟩, hlink⟩ := hway place hplace
  exact ⟨⟨before, hbefore.trans hmore, hp⟩, hlink⟩

/-- A free name gets an entry. -/
theorem put_free {names : List Text} (hfree : t.entry? (pathAt root names) = none) {entry : Entry}
    (hlink : ∀ target, entry ≠ .link target) :
    Extends root names t (t.put (pathAt root names) entry) := by
  have htop := ne_top_of_entry?_ne (ne_directory_of_free hfree)
  have hnone : (t.entries.lookup (pathAt root names)).isSome = false := by
    rw [ entry?, if_neg htop] at hfree
    simp [hfree]
  refine ⟨[(pathAt root names, entry)], ?_, List.forall_mem_singleton.2 ⟨?_, hlink⟩⟩
  · rw [put, hnone, if_neg (by decide)]
  · exact ⟨names, List.prefix_refl names, rfl⟩

variable (h : Extends root fresh t after)

include h

/-- Off the way to what is new the same entries stand as before. -/
theorem entry?_off_way {names : List Text} (hnames : ¬names <+: fresh) :
    after.entry? (pathAt root names) = t.entry? (pathAt root names) := by
  obtain ⟨new, hnew, hway⟩ := h
  have hnone : new.lookup (pathAt root names) = none := by
    refine List.lookup_eq_none_iff.2 fun place hplace => ?_
    obtain ⟨⟨before, hbefore, hp⟩, -⟩ := hway place hplace
    rw [hp, bne_iff_ne, Ne, pathAt_inj]
    rintro rfl
    exact hnames hbefore
  simp [ entry?, hnew, List.lookup_append, hnone]

/-- What stood somewhere still does. -/
theorem entry?_of_some {p : Path} {entry : Entry} (hentry : t.entry? p = some entry) :
    after.entry? p = some entry := by
  obtain ⟨new, hnew, -⟩ := h
  unfold entry? at hentry ⊢
  split at hentry
  · next htop => rwa [if_pos htop]
  · next htop => rw [if_neg htop, hnew, List.lookup_append, hentry, Option.some_or]

/-- What is new is no link and stands on the way. -/
theorem new_of_none {p : Path} {entry : Entry} (hnone : t.entry? p = none)
    (hentry : after.entry? p = some entry) :
    (∃ before, before <+: fresh ∧ p = pathAt root before) ∧ ∀ target, entry ≠ .link target := by
  obtain ⟨new, hnew, hway⟩ := h
  have htop : p ≠ .top := ne_top_of_entry?_ne (ne_directory_of_free hnone)
  rw [ entry?, if_neg htop] at hnone hentry
  rw [hnew, List.lookup_append, hnone, Option.none_or] at hentry
  have hmem : (p, entry) ∈ new := by
    obtain ⟨before, behind, hsplit, -⟩ := List.lookup_eq_some_iff.1 hentry
    rw [hsplit]
    simp
  exact hway _ hmem

theorem noLink (hfree : ∀ p target, t.entry? p ≠ some (.link target)) (p : Path) (target : Text) :
    after.entry? p ≠ some (.link target) := by
  intro hlink
  rcases hentry : t.entry? p with _ | entry
  · exact (h.new_of_none hentry hlink).2 target rfl
  · rw [h.entry?_of_some hentry] at hlink
    exact hfree p target (hentry.trans hlink)

theorem entry?_link_iff (p : Path) (target : Text) :
    after.entry? p = some (.link target) ↔ t.entry? p = some (.link target) := by
  refine ⟨fun hlink => ?_, h.entry?_of_some⟩
  rcases hentry : t.entry? p with _ | entry
  · exact absurd rfl ((h.new_of_none hentry hlink).2 target)
  · rwa [h.entry?_of_some hentry] at hlink

theorem links_eq : after.links = t.links := by
  obtain ⟨new, hnew, hway⟩ := h
  have hnone : links ⟨new⟩ = [] := by
    refine List.filterMap_eq_nil_iff.2 fun place hplace => ?_
    obtain ⟨p, contents | _ | target⟩ := place
    · rfl
    · rfl
    · exact absurd rfl ((hway _ hplace).2 target)
  unfold links at hnone ⊢
  rw [hnew, List.filterMap_append, hnone, List.append_nil]

/-- A path that leads to what stands somewhere leads there still. -/
theorem resolve_of_look {p q : Path} {arrival : Arrival} (hresolve : t.resolve p = .ok q)
    (hlook : after.look q = .ok arrival) : after.resolve p = .ok q := by
  have hfollow : after.follow after.links .top p.names = t.follow t.links .top p.names := by
    refine follow_congr h.entry?_link_iff fun _ _ _ => ?_
    rw [h.links_eq]
  unfold resolve at hresolve ⊢
  rw [hfollow]
  cases hway : t.follow t.links .top p.names with
  | plain path => rwa [hway] at hresolve
  | circle names =>
      rw [hway] at hresolve
      simp only at hresolve ⊢
      split at hresolve
      · cases hresolve
      · obtain rfl := Except.ok.inj hresolve
        rw [hlook]

end Extends

/-! ## Changes -/

namespace Linkless

variable {root : Path} {t : Tree} (h : t.Linkless root)

include h

/-- A project has no links after an entry is set where looking for a path has arrived. -/
theorem put_arrival {names : List Text} (hnames : ∀ name ∈ names, Path.IsProper name)
    (habove : t.Solid (pathAt root names).parent)
    (hold : t.entry? (pathAt root names) ≠ some .directory) {entry : Entry}
    (hlink : ∀ target, entry ≠ .link target) :
    (t.put (pathAt root names) entry).Linkless root := by
  rcases List.eq_nil_or_concat names with rfl | ⟨above, name, rfl⟩
  · rw [pathAt_nil] at hold
    exact absurd h.solid_root.entry? hold
  · rw [List.concat_eq_append] at habove hold ⊢
    rw [parent_pathAt] at habove
    exact h.put (hnames name (by simp)) habove.entry? hold hlink

theorem addDirectory {names : List Text} (hnames : ∀ name ∈ names, Path.IsProper name)
    {made : Tree} (hmade : t.addDirectory (pathAt root names) = .ok made) :
    made.Linkless root ∧ Extends root names t made ∧
      made.entry? (pathAt root names) = some .directory := by
  have hsteps (name : Text) (hname : name ∈ names) : Path.IsStep name := (hnames name hname).isStep
  unfold Tree.addDirectory at hmade
  split at hmade
  · next q hlook =>
    obtain rfl := Except.ok.inj hmade
    obtain ⟨rfl, hsolid⟩ := h.found_of_look hsteps hlook
    exact ⟨h, .refl root names t, hsolid.entry?⟩
  · next q hlook =>
    obtain rfl := Except.ok.inj hmade
    obtain ⟨hq, habove, hfree⟩ := h.found_of_look hsteps hlook
    simp only [Arrival.path] at hq
    subst hq
    have hold := ne_directory_of_free hfree
    refine ⟨h.put_arrival hnames habove hold (by simp), .put_free hfree (by simp), ?_⟩
    rw [entry?_put (ne_top_of_entry?_ne hold), if_pos rfl]
  · cases hmade
  · cases hmade

theorem addDirectories {names : List Text} (hnames : ∀ name ∈ names, Path.IsProper name)
    {refusal : Option Refusal} {made : Tree}
    (hmade : t.addDirectories (pathAt root names) = (refusal, made)) :
    made.Linkless root ∧ Extends root names t made ∧
      (refusal = none → made.entry? (pathAt root names) = some .directory) := by
  induction names using List.reverseRecOn generalizing refusal made with
  | nil =>
      rw [pathAt_nil, addDirectories_of_look h.lookRoot] at hmade
      obtain ⟨rfl, rfl⟩ := Prod.mk.inj hmade
      rw [pathAt_nil]
      exact ⟨h, .refl root [] t, fun _ => h.solid_root.entry?⟩
  | append_singleton above name ih =>
      have habove (n : Text) (hn : n ∈ above) : Path.IsProper n :=
        hnames n (List.mem_append_left _ hn)
      -- The directory is made at once, or after the ones above it, or not at all.
      unfold Tree.addDirectories at hmade
      split at hmade
      · next made' hdirectory =>
        obtain ⟨rfl, rfl⟩ := Prod.mk.inj hmade
        obtain ⟨hlinkless, hextends, hentry⟩ := h.addDirectory hnames hdirectory
        exact ⟨hlinkless, hextends, fun _ => hentry⟩
      · split at hmade
        · rw [parent_pathAt] at hmade
          split at hmade
          · next hup =>
            obtain ⟨rfl, rfl⟩ := Prod.mk.inj hmade
            obtain ⟨hlinkless, hextends, -⟩ := ih habove hup
            exact ⟨hlinkless, hextends.mono (List.prefix_append above [name]), by simp⟩
          · next hup =>
            obtain ⟨hlinkless, hextends, -⟩ := ih habove hup
            have hextends := hextends.mono (List.prefix_append above [name])
            split at hmade
            · next hdirectory =>
              obtain ⟨rfl, rfl⟩ := Prod.mk.inj hmade
              obtain ⟨hlinkless', hextends', hentry⟩ := hlinkless.addDirectory hnames hdirectory
              exact ⟨hlinkless', hextends.trans hextends', fun _ => hentry⟩
            · obtain ⟨rfl, rfl⟩ := Prod.mk.inj hmade
              exact ⟨hlinkless, hextends, by simp⟩
        · obtain ⟨rfl, rfl⟩ := Prod.mk.inj hmade
          exact ⟨h, .refl root _ t, by simp⟩

/-- A project has no links after some of its files have got new contents. -/
theorem overwrite {news : News} (hnews : t.HasFilesFor news) :
    (t.overwrite news).Linkless root := by
  have hdirectory (p : Path) (hp : t.entry? p = some .directory) :
      Tree.entry? (t.overwrite news) p = some .directory := by
    rw [entry?_overwrite_of_fileAt hnews (by simp [fileAt, hp]), hp]
  -- A path leads to an entry after the change exactly when it did before.
  have hbefore (p : Path) (entry : Entry) (hp : Tree.entry? (t.overwrite news) p = some entry) :
      ∃ held, t.entry? p = some held := by
    rw [entry?_overwrite hnews] at hp
    rcases hfile : news p with _ | contents
    · rw [hfile] at hp
      exact ⟨entry, hp⟩
    · obtain ⟨held, hheld⟩ := Option.isSome_iff_exists.1 (hnews p (by simp [hfile]))
      exact ⟨_, fileAt_eq_some.1 hheld⟩
  constructor
  case lookRoot =>
    rw [look_overwrite hnews, h.lookRoot]
    rfl
  case unique =>
    have hkeys : (t.overwrite news).entries.map Prod.fst = t.entries.map Prod.fst := by
      simp [Tree.overwrite, Function.comp_def]
    rw [hkeys]
    exact h.unique
  case noLink =>
    intro names target
    rw [entry?_overwrite hnews]
    cases news (pathAt root names) with
    | none => exact h.noLink names target
    | some contents => simp
  case names =>
    intro names entry hentry
    obtain ⟨held, hheld⟩ := hbefore _ entry hentry
    exact h.names names held hheld
  case parent =>
    intro names name entry hentry
    obtain ⟨held, hheld⟩ := hbefore _ entry hentry
    exact hdirectory _ (h.parent names name held hheld)

/-- Whatever contents a file gets, it is refused, or it is new or there already, and then written
over. -/
theorem write {names : List Text} (hnames : ∀ name ∈ names, Path.IsProper name) :
    (∃ refusal, ∀ contents, t.write (pathAt root names) contents = .error refusal) ∨
      octetCount (pathAt root names).text < pathLimit ∧ ∃ between held,
        between.Linkless root ∧ Extends root names t between ∧
          between.fileAt (pathAt root names) = some held ∧
          ∀ contents, t.write (pathAt root names) contents =
            .ok (between.overwrite (.add .nothing (pathAt root names) contents)) := by
  have hput {between : Tree} {held : Contents}
      (hfile : between.fileAt (pathAt root names) = some held) (contents : Contents) :
      between.put (pathAt root names) (.file contents) =
        between.overwrite (.add .nothing (pathAt root names) contents) := by
    rw [← put_overwrite (hasFilesFor_nothing between) hfile, overwrite_nothing]
  rcases hlook : t.look (pathAt root names) with obstacle | arrival
  · exact .inl ⟨⟨obstacle, pathAt root names⟩, fun contents => by simp only [Tree.write, hlook]⟩
  obtain ⟨hpath, hfound⟩ := h.found_of_look (fun name hname => (hnames name hname).isStep) hlook
  cases arrival with
  | directory q =>
      exact .inl ⟨⟨.isDirectory, pathAt root names⟩, fun contents => by
        simp only [Tree.write, hlook]⟩
  | file q held =>
      obtain rfl : q = pathAt root names := hpath
      have hfile := fileAt_eq_some.2 hfound.2
      refine .inr ⟨short_of_look hlook, t, held, h, .refl _ _ t, hfile, fun contents => ?_⟩
      simp only [Tree.write, hlook, hput hfile]
  | free q =>
      obtain rfl : q = pathAt root names := hpath
      obtain ⟨habove, hentry⟩ := hfound
      have hold := ne_directory_of_free hentry
      have hfile : (t.put (pathAt root names) (.file [])).fileAt (pathAt root names) = some [] := by
        rw [fileAt_put_file (ne_top_of_entry?_ne hold), if_pos rfl]
      refine .inr ⟨short_of_look hlook, t.put (pathAt root names) (.file []), [],
        h.put_arrival hnames habove hold (by simp), .put_free hentry (by simp), hfile,
        fun contents => ?_⟩
      simp only [Tree.write, hlook, ← hput hfile, put_put]

end Linkless

end Tree

end BundleHook
