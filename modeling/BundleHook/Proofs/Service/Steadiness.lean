import BundleHook.Proofs.Service.Duty
import BundleHook.Proofs.Service.Finding

/-!
# Steady duties

While a run goes on, the project may get a new table of strings and new contents of files that other
duties are about. A steady duty finds the same file all the same and reads the same from it, so that
what it comes to is settled from the start.

* `Moved` — what the project has come to;
* `Steady.place_moved`, `Steady.read_moved`, `Steady.write_moved` — a duty in such a project.
-/

namespace BundleHook

open Glob (pathAt)

/-! ## Endings -/

/-- The names that the file of a duty can have. -/
def Duty.endings (duty : Duty) : List Text :=
  match duty.lost with
  | .platform platform => platform.entryNames
  | _ => [duty.name.toList]

/-- No text ends with one of the names and with one of the others. -/
def EndApart (names others : List Text) : Prop :=
  ∀ name ∈ names, ∀ other ∈ others, ¬name <:+ other ∧ ¬other <:+ name

instance (names others : List Text) : Decidable (EndApart names others) :=
  List.decidableBAll _ names

theorem EndApart.append {names more others : List Text} (h : EndApart names others)
    (hmore : EndApart more others) : EndApart (names ++ more) others :=
  List.forall_mem_append.2 ⟨h, hmore⟩

theorem EndApart.not_both {names others : List Text} (h : EndApart names others) {name other : Text}
    (hname : name ∈ names) (hother : other ∈ others) {t : Text} (hends : name <:+ t) :
    ¬other <:+ t := by
  intro hends'
  obtain ⟨hne, hne'⟩ := h name hname other hother
  exact (List.suffix_or_suffix_of_suffix hends hends').elim hne hne'

/-! ## What a project has come to -/

/-- From `t` the project has come to `between` by a new table of strings at most, and to new
contents of files with some names. -/
structure Moved (store : Store) (names : List Text) (t between : Tree) (news : News) : Prop where
  linkless : between.Linkless store.root
  grown : Tree.Extends store.root Location.stringTableNames t between
  short : between = t ∨
    Tree.octetCount (pathAt store.root Location.stringTableNames).text < Tree.pathLimit
  held : between.HasFilesFor news
  named : ∀ q, news q ≠ none → ∃ name ∈ names, name <:+ q.name

theorem Moved.nothing {store : Store} {t : Tree} (h : t.Linkless store.root) (names : List Text) :
    Moved store names t t .nothing where
  linkless := h
  grown := .refl _ _ t
  short := .inl rfl
  held := Tree.hasFilesFor_nothing t
  named _ hq := absurd rfl hq

theorem Moved.mono {store : Store} {names more : List Text} {t between : Tree} {news : News}
    (h : Moved store names t between news) (hmore : names ⊆ more) :
    Moved store more t between news where
  linkless := h.linkless
  grown := h.grown
  short := h.short
  held := h.held
  named q hq := by
    obtain ⟨name, hname, hends⟩ := h.named q hq
    exact ⟨name, hmore hname, hends⟩

/-- What has become of a project may be taken for where it starts. -/
theorem Moved.from_here {store : Store} {names : List Text} {t between : Tree} {news : News}
    (h : Moved store names t between news) : Moved store names between between news where
  linkless := h.linkless
  grown := .refl _ _ between
  short := .inl rfl
  held := h.held
  named := h.named

/-- New contents for one more file. -/
theorem Moved.add {store : Store} {names : List Text} {t between : Tree} {news : News}
    (h : Moved store names t between news) {q : Path} {held : Contents}
    (hfile : between.fileAt q = some held) {endings : List Text}
    (hends : ∃ last ∈ endings, last <:+ q.name) (contents : Contents) :
    Moved store (endings ++ names) t between (news.add q contents) where
  linkless := h.linkless
  grown := h.grown
  short := h.short
  held := h.held.add hfile contents
  named p hp := by
    by_cases hpq : p = q
    · subst hpq
      obtain ⟨last, hlast, hend⟩ := hends
      exact ⟨last, List.mem_append_left _ hlast, hend⟩
    · rw [News.add, if_neg hpq] at hp
      obtain ⟨name, hname, hend⟩ := h.named p hp
      exact ⟨name, List.mem_append_right _ hname, hend⟩

/-! ## Steady duties -/

/-- The duty finds the same file when the project has moved, and all that it works out is about what
it reads there. -/
structure Duty.Steady (store : Store) (duty : Duty) : Prop where
  offWay : ∀ last ∈ duty.endings, ∀ name ∈ Location.stringTableNames, ¬last <:+ name
  place_overwrite : ∀ {t : Tree} {news : News}, t.HasFilesFor news →
    (t.entries.map Prod.fst).Nodup → duty.place (t.overwrite news) = duty.place t
  place_extends : ∀ {t after : Tree}, Store.Unlinked t store.root → after.Linkless store.root →
    Tree.Extends store.root Location.stringTableNames t after →
    Tree.octetCount (pathAt store.root Location.stringTableNames).text < Tree.pathLimit →
    duty.place after = duty.place t
  points : ∀ {t : Tree} {key : String}, Store.Unlinked t store.root → duty.place t = .ok key →
    ∃ last ∈ duty.endings, Store.Points t last key
  revise : ∀ {t after : Tree} {key : String}, store.read after key = store.read t key →
    duty.revise after key = duty.revise t key
  reads : ∀ {t : Tree} {key : String} {contents : Contents} {answer : Change → FileResult},
    duty.revise t key = .ok ⟨some contents, answer⟩ → ∃ held, store.read t key = .ok held

namespace Duty.Steady

variable {store : Store} {duty : Duty} (hsteady : duty.Steady store) {names : List Text}
  {t between : Tree} {news : News} (h : Store.Unlinked t store.root)
  (hmoved : Moved store names t between news)

include hsteady h hmoved

theorem place_moved : duty.place (between.overwrite news) = duty.place t := by
  rw [hsteady.place_overwrite hmoved.held hmoved.linkless.unique]
  rcases hmoved.short with hsame | hshort
  · rw [hsame]
  · exact hsteady.place_extends h hmoved.linkless hmoved.grown hshort

variable {key : String} (hplace : duty.place t = .ok key)

include hplace

/-- The file that the duty finds has one of its names. -/
theorem exists_ending {q : Path} {held : Contents} (hfinds : store.Finds between key q held) :
    ∃ last ∈ duty.endings, last <:+ q.name := by
  obtain ⟨last, hlast, hpoints⟩ := hsteady.points h hplace
  exact ⟨last, hlast, (hpoints.of_extends hmoved.grown).suffix_of_finds hmoved.linkless hfinds⟩

/-- What the duty has read is written over. -/
theorem write_moved {held : Contents} (hread : store.read t key = .ok held) (contents : Contents) :
    ∃ q held, store.Finds between key q held ∧
      store.write (between.overwrite news) key contents =
        (none, between.overwrite (news.add q contents)) ∧
      Moved store (duty.endings ++ names) t between (news.add q contents) := by
  obtain ⟨last, hlast, hpoints⟩ := hsteady.points h hplace
  rw [← hpoints.read_extends h.linkless hmoved.linkless hmoved.grown
    (hsteady.offWay last hlast)] at hread
  obtain ⟨q, hfinds⟩ := Store.exists_finds_of_read hread
  exact ⟨q, held, hfinds, Store.write_overwrite hmoved.held hfinds contents,
    hmoved.add hfinds.fileAt (hsteady.exists_ending h hmoved hplace hfinds) contents⟩

variable (hapart : EndApart names duty.endings)

include hapart

theorem read_moved : store.read (between.overwrite news) key = store.read t key := by
  obtain ⟨last, hlast, hpoints⟩ := hsteady.points h hplace
  have hother : store.Untouched between news key := by
    intro q held hfinds
    by_contra hnews
    obtain ⟨name, hname, hends⟩ := hmoved.named q hnews
    obtain ⟨last, hlast, hends'⟩ := hsteady.exists_ending h hmoved hplace hfinds
    exact hapart.not_both hname hlast hends hends'
  rw [Store.read_overwrite hmoved.held hother]
  exact hpoints.read_extends h.linkless hmoved.linkless hmoved.grown (hsteady.offWay last hlast)

theorem revise_moved : duty.revise (between.overwrite news) key = duty.revise t key :=
  hsteady.revise (hsteady.read_moved h hmoved hplace hapart)

end Duty.Steady

/-! ### The duties that are steady -/

namespace Duty

variable {store : Store} {credentials : Credentials} {t after : Tree} {key : String}

theorem readAsText_congr (h : store.read after key = store.read t key) :
    store.readAsText after key = store.readAsText t key := by
  unfold Store.readAsText
  rw [h]

theorem textOrNothing_overwrite {news : News} (hnews : t.HasFilesFor news)
    (huntouched : store.Untouched t news key) :
    store.textOrNothing (t.overwrite news) key = store.textOrNothing t key := by
  unfold Store.textOrNothing
  rw [Store.has_overwrite hnews, Store.readAsText_overwrite hnews huntouched]

theorem exists_read_of_reviseEntry {platform : Platform} {revision : Revision}
    (h : reviseEntry store platform t key = .ok revision) : ∃ held, store.read t key = .ok held := by
  rcases hread : store.read t key with fault | held
  · rw [reviseEntry_of_fault (Store.readAsText_of_read_error hread)] at h
    cases h
  · exact ⟨held, rfl⟩

theorem exists_read_of_reviseProperties {revision : Revision}
    (h : reviseProperties store credentials t key = .ok revision) :
    ∃ held, store.read t key = .ok held := by
  obtain ⟨current, -, hread, -⟩ := reviseResource_eq_ok h
  exact ⟨current, hread⟩

/-- The way to the sources of the Android app is shorter than the one to its strings. -/
theorem short_sources {root : Path}
    (h : Tree.octetCount (pathAt root Location.stringTableNames).text < Tree.pathLimit) :
    Tree.octetCount (pathAt root ("android".toList :: Location.sourceNames)).text <
      Tree.pathLimit :=
  Nat.lt_of_le_of_lt (Tree.octetCount_text_le_of_join (by decide) (by decide) (by decide)) h

theorem offWay_entryNames (platform : Platform) :
    ∀ last ∈ platform.entryNames, ∀ name ∈ Location.stringTableNames, ¬last <:+ name := by
  cases platform <;> decide

theorem offWay_propertyList :
    ∀ last ∈ [Location.propertyListName.toList], ∀ name ∈ Location.stringTableNames,
      ¬last <:+ name := by
  decide

theorem steady_ofEntry (store : Store) (platform : Platform) :
    (ofEntry store platform).Steady store where
  offWay := offWay_entryNames platform
  place_overwrite hnews hunique := Location.ofEntryFile_overwrite hnews hunique platform
  place_extends h hafter hextends hshort := by
    cases platform with
    | android => exact Location.ofMainApplication_extends h hafter hextends (short_sources hshort)
    | ios => exact Location.ofAppDelegate_extends h hafter hextends
  points h hplace := Location.points_ofEntryFile h hplace
  revise hread := by
    show reviseEntry _ _ _ _ = reviseEntry _ _ _ _
    unfold reviseEntry
    rw [readAsText_congr hread]
  reads hrevise := exists_read_of_reviseEntry hrevise

theorem steady_propertyList (store : Store) (credentials : Credentials) :
    (ofResource store credentials .ios).Steady store where
  offWay := offWay_propertyList
  place_overwrite hnews hunique := Location.ofPropertyList_overwrite hnews hunique
  place_extends h hafter hextends _ := Location.ofPropertyList_extends h hafter hextends
  points h hplace := ⟨_, List.mem_singleton_self _, Location.points_ofPropertyList h hplace⟩
  revise hread := by
    show reviseProperties _ _ _ _ = reviseProperties _ _ _ _
    unfold reviseProperties
    rw [hread]
  reads hrevise := exists_read_of_reviseProperties hrevise

/-- All duties but the one about the table of strings, which comes first. -/
def later (store : Store) (credentials : Credentials) (config : PatchSettings) : List Duty :=
  (if config.androidEnabled then [ofEntry store .android] else []) ++
    if config.iosEnabled then ofPlatform store credentials .ios else []

theorem all_eq_later (store : Store) (credentials : Credentials) (config : PatchSettings) :
    all store credentials config =
      (if config.androidEnabled then [ofResource store credentials .android] else []) ++
        later store credentials config := by
  unfold all later PatchSettings.platforms
  cases config.androidEnabled <;> cases config.iosEnabled <;> rfl

variable {config : PatchSettings}

theorem mem_all_of_mem_later {duty : Duty} (h : duty ∈ later store credentials config) :
    duty ∈ all store credentials config := by
  rw [all_eq_later]
  exact List.mem_append_right _ h

theorem steady_of_mem_later {duty : Duty} (h : duty ∈ later store credentials config) :
    duty.Steady store := by
  rcases List.mem_append.1 h with h | h
  · split at h
    · obtain rfl := List.mem_singleton.1 h
      exact steady_ofEntry store .android
    · cases h
  · split at h
    · rcases List.mem_cons.1 h with rfl | h
      · exact steady_propertyList store credentials
      · obtain rfl := List.mem_singleton.1 h
        exact steady_ofEntry store .ios
    · cases h

/-- The names of the files of a run, duty by duty. -/
theorem endApart_all (store : Store) (credentials : Credentials) (config : PatchSettings) :
    (all store credentials config).Pairwise fun duty other =>
      EndApart duty.endings other.endings := by
  have hnames : [["strings.xml".toList], Platform.android.entryNames, ["Info.plist".toList],
      Platform.ios.entryNames].Pairwise EndApart := by
    decide
  have hall : ((all store credentials config).map endings).Sublist
      [["strings.xml".toList], Platform.android.entryNames, ["Info.plist".toList],
        Platform.ios.entryNames] := by
    unfold all PatchSettings.platforms
    cases config.androidEnabled <;> cases config.iosEnabled
    · exact List.nil_sublist _
    · show [["Info.plist".toList], Platform.ios.entryNames].Sublist _
      decide
    · show [["strings.xml".toList], Platform.android.entryNames].Sublist _
      decide
    · exact List.Sublist.refl _
  exact List.pairwise_map.1 (hnames.sublist hall)

end Duty

/-! ### The table of strings -/

/-- What becomes of a project by writing its table of strings: whatever they are, they are refused, or
they are written over in a project that has a table already. -/
theorem moved_of_write {store : Store} {t : Tree} (h : t.Linkless store.root) :
    (∃ refusal made, made.Linkless store.root ∧
        Tree.Extends store.root Location.stringTableNames t made ∧
        ∀ contents, store.write t Location.stringTableKey contents = (some refusal, made)) ∨
      ∃ between, ∀ contents,
        let news := News.nothing.add (pathAt store.root Location.stringTableNames) contents
        store.write t Location.stringTableKey contents = (none, between.overwrite news) ∧
          Moved store ["strings.xml".toList] t between news := by
  rw [Location.stringTableKey_eq]
  refine (Store.write_of_linkless Location.spells_stringTableNames (List.cons_ne_nil _ _) h).imp_right
    fun ⟨hshort, between, held, hlinkless, hextends, hfile, hwritten⟩ => ?_
  refine ⟨between, fun contents => ⟨hwritten contents, hlinkless, hextends, .inr hshort,
    (Tree.hasFilesFor_nothing between).add hfile contents, fun q hq => ?_⟩⟩
  refine ⟨_, List.mem_singleton_self _, ?_⟩
  have hplace : q = pathAt store.root Location.stringTableNames := by
    by_contra hne
    exact hq (if_neg hne)
  have hname : q.name = "strings.xml".toList := by
    simp [hplace, Path.name, pathAt, Location.stringTableNames]
  simp only [hname, List.suffix_refl]

end BundleHook
