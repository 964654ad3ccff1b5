import BundleHook.Proofs.Glob.Listing
import BundleHook.Proofs.Service.Steadiness
import Mathlib

/-!
# Keys that are listed

A key that a pattern lists stands for the file that its path leads to as it stands. When the key is
used it is cleaned first, and led back into the root when its file lies elsewhere. Where there are no
links, the key is one of this very file exactly when cleaning keeps it: cleaning only takes
characters out, and a path that spells fewer characters is another one. A key that is kept goes
wrong only when a link leads out of the root. A duty that has found its file by a key of this file
neither reads nor writes any other.

* `Store.Lists` — what a pattern without a way back up lists;
* `Store.IsKeyOf` — one file is asked for, read and written by the key;
* `Duty.KeepsTo` — a duty reads and writes no other file;
* `listed_key_isKeyOf_iff` — which listed keys are keys of their files.
-/

namespace BundleHook

open Glob (pathAt)

/-! ## How much a path spells -/

namespace Path

/-- How many characters the path spells, with a slash before each name. -/
def spelled (p : Path) : Nat := (p.names.map fun name => name.length + 1).sum

theorem spelled_append (names more : List Text) :
    spelled ⟨names ++ more⟩ = spelled ⟨names⟩ + spelled ⟨more⟩ := by
  simp [spelled]

theorem spelled_join {names : List Text} (hne : names ≠ []) :
    spelled ⟨names⟩ = (Text.join ['/'] names).length + 1 := by
  induction names with
  | nil => exact absurd rfl hne
  | cons name names ih =>
      by_cases hnil : names = []
      · subst hnil
        rfl
      · have hcons : spelled ⟨name :: names⟩ = name.length + 1 + spelled ⟨names⟩ := rfl
        rw [hcons, ih hnil, Text.join_cons hnil, List.length_append, List.length_append,
          List.length_singleton]
        omega

/-- Names between the slashes of a text spell no more than the text with one slash. -/
theorem spelled_namesOf_le (t : Text) : spelled ⟨namesOf t⟩ ≤ t.length + 1 := by
  have hall : spelled ⟨Text.splitOn '/' t⟩ = t.length + 1 := by
    rw [spelled_join (Text.splitOn_ne_nil '/' t), Text.join_splitOn]
  rw [← hall]
  exact (List.Sublist.map _ List.filter_sublist).sum_le_sum fun _ _ => Nat.zero_le _

theorem spelled_ofText_le (root : Path) (t : Text) :
    (ofText root t).spelled ≤ root.spelled + (t.length + 1) := by
  have hstart : (startOf root t).spelled ≤ root.spelled := by
    unfold startOf
    split
    · exact Nat.zero_le _
    · exact Nat.le_refl _
  have hsum := spelled_append (startOf root t).names (namesOf t)
  have hnames := spelled_namesOf_le t
  show spelled ⟨_ ++ _⟩ ≤ _
  rw [hsum]
  exact Nat.add_le_add hstart hnames

/-- Going back up spells nothing. -/
theorem spelled_onward_le (here : Path) (names : List Text) :
    (here.onward names).spelled ≤ here.spelled + spelled ⟨names⟩ := by
  induction names generalizing here with
  | nil => exact Nat.le_refl _
  | cons name names ih =>
      have hcons : spelled ⟨name :: names⟩ = name.length + 1 + spelled ⟨names⟩ := rfl
      by_cases hup : name = upName
      · have hstep : here.onward (name :: names) = here.parent.onward names := by
          simp [onward, hup]
        have hparent : here.parent.spelled ≤ here.spelled :=
          (List.Sublist.map _ (List.dropLast_sublist _)).sum_le_sum fun _ _ => Nat.zero_le _
        have hrest := ih here.parent
        rw [hstep]
        omega
      · have hstep : here.onward (name :: names) = (here.child name).onward names := by
          simp [onward, hup]
        have hchild : (here.child name).spelled = here.spelled + (name.length + 1) :=
          spelled_append here.names [name]
        have hrest := ih (here.child name)
        rw [hstep]
        omega

end Path

/-- Without links, looking arrives at no path that spells more. -/
theorem Tree.spelled_of_look {t : Tree} (hnone : ∀ p target, t.entry? p ≠ some (.link target))
    {p : Path} (hstays : ∀ name ∈ p.names, Path.staysPut name = false) {arrival : Arrival}
    (hlook : t.look p = .ok arrival) : arrival.path.spelled ≤ p.spelled := by
  have hresolve := Tree.resolve_of_arrival hlook
  unfold Tree.resolve at hresolve
  rw [Tree.follow_of_noLinks hnone hstays] at hresolve
  rw [← Except.ok.inj hresolve]
  exact (Path.spelled_onward_le .top p.names).trans (Nat.zero_add _).le

namespace Store

/-- A pattern without a way back up lists the key. -/
def Lists (store : Store) (t : Tree) (key : String) : Prop :=
  ∃ pattern keys, ¬Path.upName <:+: pattern.toList ∧ store.glob t pattern = .ok keys ∧ key ∈ keys

/-- All that is done with the key is done with one file, which holds the contents. -/
structure IsKeyOf (store : Store) (t : Tree) (key : String) (q : Path) (held : Contents) :
    Prop where
  has : store.has t key = .ok true
  read : store.read t key = .ok held
  writes : ∀ contents, ∃ after, store.write t key contents = (none, after) ∧
    ∀ p, after.entry? p = if p = q then some (.file contents) else t.entry? p

variable {store : Store} {t : Tree} {key : String} {q : Path} {held : Contents}

theorem Finds.isKeyOf (h : store.Finds t key q held) : store.IsKeyOf t key q held where
  has := h.has
  read := h.read
  writes contents := by
    have hnothing := Tree.hasFilesFor_nothing t
    have hwrite := write_overwrite hnothing h contents
    rw [Tree.overwrite_nothing] at hwrite
    refine ⟨_, hwrite, fun p => ?_⟩
    rw [Tree.entry?_overwrite (hnothing.add h.fileAt contents)]
    by_cases hp : p = q
    · simp [News.add, hp]
    · simp [News.add, News.nothing, hp]

theorem IsKeyOf.finds (h : store.IsKeyOf t key q held) : store.Finds t key q held := by
  obtain ⟨p, hfinds⟩ := exists_finds_of_read h.read
  -- Other contents under the key go to the file at `p`, and so to the one at `q`.
  obtain ⟨after, hwrite, hentries⟩ := h.writes (0 :: held)
  obtain ⟨after', hwrite', hentries'⟩ := hfinds.isKeyOf.writes (0 :: held)
  obtain rfl : after = after' := (Prod.mk.inj (hwrite.symm.trans hwrite')).2
  by_cases hp : p = q
  · rwa [hp] at hfinds
  · have hnew := hentries' p
    rw [hentries, if_neg hp, if_pos rfl, Tree.fileAt_eq_some.1 hfinds.fileAt] at hnew
    exact absurd (Entry.file.inj (Option.some.inj hnew)) (List.cons_ne_self _ _).symm

theorem isKeyOf_iff_finds : store.IsKeyOf t key q held ↔ store.Finds t key q held :=
  ⟨IsKeyOf.finds, Finds.isKeyOf⟩

section Listed

variable (hnamed : t.IsNamed) (h : store.Lists t key)

include hnamed h

/-- A listed key is made of names of the tree, which lead to a file. -/
theorem Lists.exists_names :
    ∃ names, key = keyOf names ∧ names ≠ [] ∧
      (∀ name ∈ names, Path.IsProper name ∧ '\x00' ∉ name) ∧
      ∃ q held, t.look (pathAt store.root names) = .ok (.file q held) := by
  obtain ⟨pattern, keys, hup, hglob, hkey⟩ := h
  rcases hsteps : Glob.steps pattern.toList with fault | along
  · simp [glob, hsteps, Except.mapError, bind, Except.bind] at hglob
  obtain ⟨found, names, hfound, hnames, rfl⟩ := Location.exists_of_mem_glob hsteps hglob hkey
  obtain ⟨hproper, hfile⟩ := Glob.file_of_mem_filesAlong_named hnamed
    (Glob.isName_of_steps hup hsteps) hfound hnames
  exact ⟨names, rfl, Glob.ne_nil_of_mem_filesAlong hfound hnames, hproper, hfile⟩

theorem Lists.placeOf_eq : ∃ names, names ≠ [] ∧ key = keyOf names ∧
    store.placeOf key = pathAt store.root names := by
  obtain ⟨names, rfl, hne, hproper, -⟩ := h.exists_names hnamed
  exact ⟨names, hne, rfl, placeOf_of_names hne (fun name hname => (hproper name hname).1.isStep)
    (fun name hname => (hproper name hname).1.noSlash) store⟩

/-- A listed key stands for a file. -/
theorem Lists.exists_look : ∃ q held, t.look (store.placeOf key) = .ok (.file q held) := by
  obtain ⟨names, rfl, hne, hproper, hfile⟩ := h.exists_names hnamed
  rwa [placeOf_of_names hne (fun name hname => (hproper name hname).1.isStep)
    (fun name hname => (hproper name hname).1.noSlash)]

/-- Where there are no links there are none on the way. -/
theorem Lists.linkFree_placeOf (hroot : t.LinkFree store.root)
    (hnone : ∀ p target, t.entry? p ≠ some (.link target)) : t.LinkFree (store.placeOf key) := by
  obtain ⟨names, rfl, hne, hproper, -⟩ := h.exists_names hnamed
  have hsteps (name : Text) (hname : name ∈ names) : Path.IsStep name :=
    (hproper name hname).1.isStep
  rw [placeOf_of_names hne hsteps fun name hname => (hproper name hname).1.noSlash]
  exact ⟨List.forall_mem_append.2 ⟨hroot.isStep, hsteps⟩, fun _ _ target => hnone _ target⟩

theorem Lists.reaches_placeOf : store.root.reaches (store.placeOf key) = true := by
  obtain ⟨names, -, -, hplace⟩ := h.placeOf_eq hnamed
  rw [hplace, Path.reaches, List.isPrefixOf_iff_prefix]
  exact List.prefix_append _ names

theorem Lists.notMem_null : '\x00' ∉ key.toList := by
  obtain ⟨names, rfl, -, hproper, -⟩ := h.exists_names hnamed
  rw [keyOf, String.toList_ofList]
  exact not_mem_join_names (by decide) fun name hname => (hproper name hname).2

/-- A listed key that is kept finds the file that it stands for when this lies in the root, or when
the key as a single name leads to it. -/
theorem Lists.finds_iff (hkept : IsKept key)
    (hlook : t.look (store.placeOf key) = .ok (.file q held)) :
    store.Finds t key q held ↔
      if store.root.reaches q then Tree.octetCount q.text < Tree.pathLimit
      else t.look (Path.ofText store.root (flatName key)) = .ok (.file q held) := by
  have hmeant : store.meantPath key = store.placeOf key := by
    unfold meantPath placeOf
    rw [show cleanKey key.toList = key.toList from hkept]
  have hpath := @pathOf_eq store t key (h.notMem_null hnamed)
  rw [hmeant, Tree.resolve_of_arrival hlook] at hpath
  have hfinds {p : Path} (hp : store.pathOf t key = .ok p) :
      store.Finds t key q held ↔ t.look p = .ok (.file q held) :=
    ⟨fun ⟨_, hp', hfile⟩ => Except.ok.inj (hp.symm.trans hp') ▸ hfile, fun hfile => ⟨p, hp, hfile⟩⟩
  by_cases hinside : store.root.reaches q = true
  · rw [if_pos hinside, hfinds (hpath.trans (if_pos hinside))]
    exact ⟨Tree.short_of_look, hnamed.look_of_file hlook⟩
  · rw [if_neg hinside, hfinds (hpath.trans (if_neg hinside))]

/-- Where there are no links, the file of a listed key is found by none but a kept key. -/
theorem Lists.isKept_of_finds (hroot : t.LinkFree store.root)
    (hnone : ∀ p target, t.entry? p ≠ some (.link target))
    (hlook : t.look (store.placeOf key) = .ok (.file q held))
    (hfinds : store.Finds t key q held) : IsKept key := by
  have hstays (text : Text) : ∀ name ∈ (Path.ofText store.root text).names,
      Path.staysPut name = false := by
    intro name hname
    rcases List.mem_append.1 hname with hname | hname
    · unfold Path.startOf at hname
      split at hname
      · cases hname
      · exact (hroot.isStep name hname).1
    · simpa using (List.mem_filter.1 hname).2
  -- What the key leads to spells no more than the root and the cleaned key.
  obtain ⟨p, hpath, hfile⟩ := hfinds
  have hused : q.spelled ≤ store.root.spelled + ((cleanKey key.toList).length + 1) := by
    rw [pathOf_eq (h.notMem_null hnamed), Tree.resolve, meantPath,
      Tree.follow_of_noLinks hnone (hstays _)] at hpath
    simp only at hpath
    split at hpath
    · obtain rfl := Except.ok.inj hpath
      have hkept (name : Text)
          (hname : name ∈ (Path.top.onward (store.meantPath key).names).names) :
          Path.staysPut name = false := by
        rcases Path.mem_onward hname with htop | ⟨hmem, -⟩
        · cases htop
        · exact hstays (cleanKey key.toList) name hmem
      calc q.spelled
        _ ≤ _ := Tree.spelled_of_look hnone hkept hfile
        _ ≤ _ := Path.spelled_onward_le .top _
        _ = _ := Nat.zero_add _
        _ ≤ _ := Path.spelled_ofText_le _ _
    · obtain rfl := Except.ok.inj hpath
      have hle := (Tree.spelled_of_look hnone (hstays _) hfile).trans (Path.spelled_ofText_le _ _)
      rwa [flatName, flatKey, List.length_map] at hle
  -- What it stands for spells the root and the key.
  have hmeant : q.spelled = store.root.spelled + (key.toList.length + 1) := by
    obtain rfl : q = store.placeOf key :=
      Tree.path_of_look (h.linkFree_placeOf hnamed hroot hnone) hlook
    obtain ⟨names, hne, rfl, hplace⟩ := h.placeOf_eq hnamed
    rw [hplace, pathAt, Path.spelled_append, Path.spelled_join hne, keyOf, String.toList_ofList]
  refine (cleanKey_sublist _).eq_of_length_le ?_
  omega

/-- Different listed keys stand for different files where no links are on the way. -/
theorem Lists.look_ne {other : String} (hother : store.Lists t other) (hne : other ≠ key)
    (hfree : t.LinkFree (store.placeOf key)) (hfree' : t.LinkFree (store.placeOf other))
    (hlook : t.look (store.placeOf key) = .ok (.file q held)) (held' : Contents) :
    t.look (store.placeOf other) ≠ .ok (.file q held') := by
  intro hlook'
  have hkey : q = store.placeOf key := Tree.path_of_look hfree hlook
  have hother' : q = store.placeOf other := Tree.path_of_look hfree' hlook'
  obtain ⟨names, -, rfl, hnames⟩ := h.placeOf_eq hnamed
  obtain ⟨names', -, rfl, hnames'⟩ := hother.placeOf_eq hnamed
  rw [hkey, hnames, hnames'] at hother'
  exact hne (congrArg keyOf (Tree.pathAt_inj.1 hother').symm)

end Listed

end Store

/-! ## Duties that find their files by such keys -/

namespace Duty

/-- With its file under the key, the duty reads and writes no other file. -/
structure KeepsTo (store : Store) (duty : Duty) (t : Tree) (key : String) (q : Path) : Prop where
  reads : ∀ news, t.HasFilesFor news → news q = none →
    duty.revise (t.overwrite news) key = duty.revise t key
  writes : ∀ dryRun p, p ≠ q →
    Tree.entry? (Project.perform ⟨store, dryRun⟩ duty t).2 p = t.entry? p

variable {store : Store} {credentials : Credentials} {config : PatchSettings} {duty : Duty}
  {t : Tree} {key : String} {q : Path} {held : Contents}

theorem entry?_perform (hplace : duty.place t = .ok key) (hfinds : store.Finds t key q held)
    (dryRun : Bool) {p : Path} (hp : p ≠ q) :
    Tree.entry? (Project.perform ⟨store, dryRun⟩ duty t).2 p = t.entry? p := by
  unfold Project.perform
  simp only [hplace]
  rcases hrevise : duty.revise t key with hindrance | revision
  · rfl
  rcases hsaved : Project.carryOut ⟨store, dryRun⟩ t key revision.contents with ⟨change, after⟩
  simp only [Project.settle, hsaved]
  rcases Project.carryOut_cases hsaved with ⟨-, -, -, rfl⟩ | ⟨contents, -, -, hwrite⟩
  · rfl
  obtain ⟨written, hwritten, hentries⟩ := hfinds.isKeyOf.writes contents
  obtain rfl : after = written := by
    rcases hwrite with ⟨fault, hwrite, -⟩ | ⟨hwrite, -⟩
    · cases hwrite.symm.trans hwritten
    · exact (Prod.mk.inj (hwrite.symm.trans hwritten)).2
  rw [hentries, if_neg hp]

theorem keepsTo (hduty : duty ∈ all store credentials config) (hplace : duty.place t = .ok key)
    (hfinds : store.Finds t key q held) : duty.KeepsTo store t key q where
  reads news hnews hother := by
    have huntouched : store.Untouched t news key := fun q' held' hfinds' => by
      rwa [(hfinds'.unique hfinds).1]
    rw [all_eq_later] at hduty
    rcases List.mem_append.1 hduty with hstrings | hlater
    · split at hstrings
      · obtain rfl := List.mem_singleton.1 hstrings
        show reviseStrings _ _ _ _ = reviseStrings _ _ _ _
        unfold reviseStrings
        rw [textOrNothing_overwrite hnews huntouched]
      · cases hstrings
    · exact (steady_of_mem_later hlater).revise (Store.read_overwrite hnews huntouched)
  writes dryRun _ := entry?_perform hplace hfinds dryRun

end Duty

/-- Every listed key stands for a file. Where there are no links it is a key of this file exactly when
cleaning keeps it. A key that cleaning keeps is one exactly when the file lies in the root, at a path
that is not too long, or the key as a single name leads to the file as well. A duty that has found its
file by such a key keeps to it, and where no links are on the way other listed keys stand for other
files. -/
theorem listed_key_isKeyOf_iff {store : Store} {t : Tree} (hnamed : t.IsNamed)
    (hroot : t.LinkFree store.root) {key : String} (hlists : store.Lists t key) :
    ∃ q held, t.look (store.placeOf key) = .ok (.file q held) ∧
      ((∀ p target, t.entry? p ≠ some (.link target)) →
        (store.IsKeyOf t key q held ↔ Store.IsKept key)) ∧
      (Store.IsKept key →
        (store.IsKeyOf t key q held ↔
          if store.root.reaches q then Tree.octetCount q.text < Tree.pathLimit
          else t.look (Path.ofText store.root (Store.flatName key)) = .ok (.file q held))) ∧
      (store.IsKeyOf t key q held →
        ∀ credentials config, ∀ duty ∈ Duty.all store credentials config,
          duty.place t = .ok key → duty.KeepsTo store t key q) ∧
      ∀ other, store.Lists t other → other ≠ key → t.LinkFree (store.placeOf key) →
        t.LinkFree (store.placeOf other) → ∀ held',
          t.look (store.placeOf other) ≠ .ok (.file q held') := by
  obtain ⟨q, held, hlook⟩ := hlists.exists_look hnamed
  refine ⟨q, held, hlook, fun hnone => ?_, fun hkept => ?_, fun hkeyOf _ _ _ hduty hplace => ?_,
    fun other hother hne hfree hfree' => hlists.look_ne hnamed hother hne hfree hfree' hlook⟩
  · rw [Store.isKeyOf_iff_finds]
    refine ⟨hlists.isKept_of_finds hnamed hroot hnone hlook, fun hkept => ?_⟩
    obtain rfl : q = store.placeOf key :=
      Tree.path_of_look (hlists.linkFree_placeOf hnamed hroot hnone) hlook
    rw [hlists.finds_iff hnamed hkept hlook, if_pos (hlists.reaches_placeOf hnamed)]
    exact Tree.short_of_look hlook
  · rw [Store.isKeyOf_iff_finds]
    exact hlists.finds_iff hnamed hkept hlook
  · exact Duty.keepsTo hduty hplace hkeyOf.finds

/-- A project with two files whose names differ by a colon. -/
def colonTree : Tree :=
  ⟨[(⟨["app".toList]⟩, .directory),
    (⟨["app".toList, "a:b".toList]⟩, .file [120]),
    (⟨["app".toList, "ab".toList]⟩, .file [121])]⟩

def colonStore : Store := ⟨⟨["app".toList]⟩⟩

private theorem linkFree_colonStore : colonTree.LinkFree colonStore.root := by
  have hlook : colonTree.look colonStore.root = .ok (.directory colonStore.root) := by cbv
  exact (Tree.found_of_look hlook).linkFree

private theorem glob_colonStore : colonStore.glob colonTree "*" = .ok ["a:b", "ab"] := by cbv

private theorem lists_colonStore {key : String} (hkey : key ∈ ["a:b", "ab"]) :
    colonStore.Lists colonTree key :=
  ⟨"*", _, mt Text.has_iff.2 (by decide), glob_colonStore, hkey⟩

theorem listed_key_isKeyOf_colonStore :
    colonTree.IsNamed ∧ colonTree.LinkFree colonStore.root ∧ colonStore.Lists colonTree "ab" ∧
      ∃ q held, colonTree.look (colonStore.placeOf "ab") = .ok (.file q held) ∧
        colonStore.IsKeyOf colonTree "ab" q held := by
  have hnamed : colonTree.IsNamed := by decide
  have hlists := @lists_colonStore "ab" (by decide)
  refine ⟨hnamed, linkFree_colonStore, hlists, ?_⟩
  obtain ⟨q, held, hlook, hnone, -⟩ :=
    listed_key_isKeyOf_iff hnamed linkFree_colonStore hlists
  refine ⟨q, held, hlook, (hnone fun p target hentry => ?_).2 (by decide)⟩
  have hlinks := Tree.mem_links hentry
  rw [show colonTree.links = [] by cbv] at hlinks
  cases hlinks

/-- Both files are listed, and the second is read by the key of the first. -/
theorem colonStore_reads_other_file :
    colonStore.glob colonTree "*" = .ok ["a:b", "ab"] ∧
      colonTree.look (colonStore.placeOf "a:b") = .ok (.file (colonStore.placeOf "a:b") [120]) ∧
      colonStore.read colonTree "a:b" = .ok [121] ∧
      colonStore.read colonTree "ab" = .ok [121] ∧
      ¬colonStore.IsKeyOf colonTree "a:b" (colonStore.placeOf "a:b") [120] := by
  have hread : colonStore.read colonTree "a:b" = .ok [121] := by cbv
  refine ⟨glob_colonStore, by cbv, hread, by cbv, fun hkeyOf => ?_⟩
  have hsame := Except.ok.inj (hread.symm.trans hkeyOf.read)
  exact absurd hsame (by decide)

end BundleHook
