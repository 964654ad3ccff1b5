import BundleHook.Proofs.Glob.Agreement
import BundleHook.Proofs.Service.Location
import BundleHook.Proofs.Store.FoundKey
import BundleHook.Proofs.Store.NewContents

/-!
# Finding the files of a project without links

The key of a file that is found has the name of the file at its end, whatever the names before it
are. Neither new contents of files nor the way to a table of strings that is new make a difference
to which files are found.

* `points_ofEntryFile`, `points_ofPropertyList` — what is found;
* `ofEntryFile_overwrite`, `ofPropertyList_overwrite` — with new contents the same is found;
* `ofEntryFile_extends`, `ofPropertyList_extends` — so it is with a new table of strings.
-/

namespace BundleHook

open Glob (pathAt)

/-- The names that an entry file can have. -/
def Platform.entryNames : Platform → List Text
  | .android => ["MainApplication.kt".toList, "MainApplication.java".toList]
  | .ios => ["AppDelegate.swift".toList, "AppDelegate.mm".toList, "AppDelegate.m".toList]

namespace Location

/-! ## Patterns -/

/-- A pattern leads from spelled-out names, in some way, to one of the names that a file can have. -/
structure Searches (first : Text) (more : List Text) (lasts : List Text) (pattern : String) :
    Prop where
  steps : ∃ between last, Glob.steps pattern.toList =
      .ok (((first :: more).map Glob.Step.exactly) ++ (between ++ [.exactly last])) ∧
    Glob.SpellsPlain between ∧ .inside ∉ between ∧ last ∈ lasts
  isPlain : ∀ name ∈ first :: more, Path.IsPlain name
  noBackslash : first.head? ≠ some '\\'
  lasts : ∀ last ∈ lasts, Path.IsPlain last ∧ '\\' ∉ last

/-- The directory that the Android app has its sources in. -/
def sourceNames : List Text := ["app".toList, "src".toList, "main".toList, "java".toList]

theorem searches_mainApplication {pattern : String} (h : pattern ∈ mainApplicationPatterns) :
    Searches "android".toList sourceNames Platform.android.entryNames pattern := by
  refine ⟨?_, by decide, by decide, by decide⟩
  rcases List.mem_cons.1 h with rfl | h
  · exact ⟨[.anyDepth], "MainApplication.kt".toList, by cbv, by decide, by decide, by decide⟩
  · obtain rfl := List.mem_singleton.1 h
    exact ⟨[.anyDepth], "MainApplication.java".toList, by cbv, by decide, by decide, by decide⟩

theorem searches_appDelegate {pattern : String} (h : pattern ∈ appDelegatePatterns) :
    Searches "ios".toList [] Platform.ios.entryNames pattern := by
  refine ⟨?_, by decide, by decide, by decide⟩
  simp only [appDelegatePatterns, List.mem_cons, List.not_mem_nil, or_false] at h
  rcases h with rfl | rfl | rfl
  · exact ⟨[.like [.star]], "AppDelegate.swift".toList, by cbv, by decide, by decide, by decide⟩
  · exact ⟨[.like [.star]], "AppDelegate.mm".toList, by cbv, by decide, by decide, by decide⟩
  · exact ⟨[.like [.star]], "AppDelegate.m".toList, by cbv, by decide, by decide, by decide⟩

theorem searches_propertyList {pattern : String} (h : pattern ∈ [propertyListPattern]) :
    Searches "ios".toList [] [propertyListName.toList] pattern := by
  obtain rfl := List.mem_singleton.1 h
  exact ⟨⟨[.like [.star]], propertyListName.toList, by cbv, by decide, by decide, by decide⟩,
    by decide, by decide, by decide⟩

section Globbing

variable {store : Store} {t : Tree} {first : Text} {more lasts : List Text} {pattern : String}

theorem glob_congr {after : Tree} {steps : List Glob.Step}
    (hsteps : Glob.steps pattern.toList = .ok steps)
    (h : Glob.filesAlong after store.root steps = Glob.filesAlong t store.root steps) :
    store.glob after pattern = store.glob t pattern := by
  rw [glob_of_steps hsteps, glob_of_steps hsteps, Glob.selectedTexts, Glob.selectedTexts, h]

theorem exists_of_mem_glob {steps : List Glob.Step} (hsteps : Glob.steps pattern.toList = .ok steps)
    {keys : List String} (hglob : store.glob t pattern = .ok keys) {key : String}
    (hkey : key ∈ keys) :
    ∃ found names, Glob.filesAlong t store.root steps = .ok found ∧ names ∈ found ∧
      key = Store.keyOf names := by
  rw [glob_of_steps hsteps] at hglob
  split at hglob
  · next texts htexts =>
    obtain rfl := Except.ok.inj hglob
    obtain ⟨text, htext, rfl⟩ := List.mem_map.1 hkey
    unfold Glob.selectedTexts at htexts
    obtain ⟨found, hfound, htexts⟩ := Glob.bind_eq_ok.1 htexts
    obtain rfl := Except.ok.inj htexts
    obtain ⟨names, hnames, rfl⟩ := List.mem_map.1 (List.mem_mergeSort.1 htext)
    exact ⟨found, names, hfound, hnames, rfl⟩
  · cases hglob

variable (h : Searches first more lasts pattern)

include h

theorem Searches.spellsPlain {between : List Glob.Step} (hbetween : Glob.SpellsPlain between)
    {last : Text} (hlast : last ∈ lasts) :
    Glob.SpellsPlain ((first :: more).map Glob.Step.exactly ++ (between ++ [.exactly last])) := by
  refine List.forall_mem_append.2 ⟨fun step hstep => ?_, List.forall_mem_append.2 ⟨hbetween, ?_⟩⟩
  · obtain ⟨name, hname, rfl⟩ := List.mem_map.1 hstep
    exact h.isPlain name hname
  · exact List.forall_mem_singleton.2 (h.lasts last hlast).1

/-- A key that is found has one of the names at its end. -/
theorem Searches.mem_glob (hunlinked : Store.Unlinked t store.root) {keys : List String}
    (hglob : store.glob t pattern = .ok keys) {key : String} (hkey : key ∈ keys) :
    ∃ above, ∃ last ∈ lasts, key = Store.keyOf (above ++ [last]) ∧ Store.Composes above ∧
      Store.Keeps t above := by
  obtain ⟨between, last, hsteps, hbetween, hinside, hlast⟩ := h.steps
  obtain ⟨found, names, hfound, hmem, rfl⟩ := exists_of_mem_glob hsteps hglob hkey
  have hplain := h.spellsPlain hbetween hlast
  obtain ⟨hproper, held, hentry⟩ :=
    Glob.file_of_mem_filesAlong hunlinked.linkless hplain hfound hmem
  have hnone : Glob.Step.inside ∉ (first :: more).map Glob.Step.exactly ++ between := by simp [hinside]
  rw [← List.append_assoc] at hfound
  have hfits := Glob.fits_of_mem_filesAlong hnone hfound hmem
  rw [List.map_cons, List.cons_append, List.cons_append] at hfits
  obtain ⟨rest, rfl, htail⟩ := hfits.exactly_cons
  obtain ⟨above, rfl⟩ := htail.append_exactly
  have hsub (name : Text) (hname : name ∈ first :: above) :
      name ∈ first :: (above ++ [last]) := by
    rw [← List.cons_append]
    exact List.mem_append_left _ hname
  refine ⟨first :: above, last, hlast, rfl, ⟨fun name hname => hproper name (hsub name hname), ?_⟩,
    (hunlinked.keeps hentry).imp_right fun hup name hname => hup name (hsub name hname)⟩
  exact ⟨first, above, rfl, h.isPlain first List.mem_cons_self, h.noBackslash⟩

theorem Searches.glob_overwrite {news : News} (hnews : t.HasFilesFor news)
    (hunique : (t.entries.map Prod.fst).Nodup) :
    store.glob (t.overwrite news) pattern = store.glob t pattern := by
  obtain ⟨between, last, hsteps, hbetween, -, hlast⟩ := h.steps
  exact glob_congr hsteps
    (Glob.filesAlong_overwrite hnews hunique store.root (h.spellsPlain hbetween hlast))

section Extending

variable {after : Tree} (hlinkless : t.Linkless store.root) (hafter : after.Linkless store.root)
  (hextends : Tree.Extends store.root stringTableNames t after)

include hlinkless hafter hextends

/-- A pattern that leads off the way from the first name on selects the same files. -/
theorem Searches.glob_extends (hoff : ¬[first] <+: stringTableNames) :
    store.glob after pattern = store.glob t pattern := by
  obtain ⟨between, last, hsteps, hbetween, -, hlast⟩ := h.steps
  have hplain := h.spellsPlain hbetween hlast
  rw [List.map_cons, List.cons_append] at hsteps hplain
  exact glob_congr hsteps (Glob.filesAlong_extends hlinkless hafter hextends hplain hoff)

/-- So does one that leads off it later, if the way there is not too long. -/
theorem Searches.glob_extends_chain (hoff : ¬first :: more <+: stringTableNames)
    (hshort : Tree.octetCount (pathAt store.root (first :: more)).text < Tree.pathLimit) :
    store.glob after pattern = store.glob t pattern := by
  obtain ⟨between, last, hsteps, hbetween, -, hlast⟩ := h.steps
  have hplain := (List.forall_mem_append.1 (h.spellsPlain hbetween hlast)).2
  exact glob_congr hsteps (Glob.filesAlong_extends_chain hlinkless hafter hextends (by simp) hplain
    ⟨fun name hname => (h.isPlain name hname).isProper, hoff⟩ hshort)

end Extending

end Globbing

/-! ## The first file -/

section First

variable {store : Store} {t after : Tree} {patterns : List String}

theorem first?_congr (h : ∀ pattern ∈ patterns, store.glob after pattern = store.glob t pattern) :
    first? store after patterns = first? store t patterns := by
  induction patterns with
  | nil => rfl
  | cons pattern others ih =>
      obtain ⟨hpattern, hothers⟩ := List.forall_mem_cons.1 h
      rw [first?_cons, first?_cons, hpattern, ih hothers]

theorem mem_glob_of_first? {key : String} (h : first? store t patterns = .ok (some key)) :
    ∃ pattern ∈ patterns, ∃ keys, store.glob t pattern = .ok keys ∧ key ∈ keys := by
  induction patterns with
  | nil => cases h
  | cons pattern others ih =>
      rw [first?_cons] at h
      split at h
      · next keys hkeys =>
        split at h
        · exact ⟨pattern, List.mem_cons_self, keys, hkeys, List.mem_of_head? (Except.ok.inj h)⟩
        · obtain ⟨other, hother, hfound⟩ := ih h
          exact ⟨other, List.mem_cons_of_mem pattern hother, hfound⟩
      · cases h

theorem locate_congr (h : first? store after patterns = first? store t patterns)
    (platform : Platform) (name : String) :
    locate store after platform name patterns = locate store t platform name patterns := by
  unfold locate
  rw [h]

end First

/-! ## What is found -/

section Found

variable {store : Store} {t : Tree} (h : Store.Unlinked t store.root)

include h

theorem points_of_first? {first : Text} {more lasts : List Text} {patterns : List String}
    (hpatterns : ∀ pattern ∈ patterns, Searches first more lasts pattern) {key : String}
    (hfirst : first? store t patterns = .ok (some key)) :
    ∃ above, ∃ last ∈ lasts, key = Store.keyOf (above ++ [last]) ∧ Store.Composes above ∧
      Store.Keeps t above ∧ Store.Points t last key := by
  obtain ⟨pattern, hpattern, keys, hglob, hkey⟩ := mem_glob_of_first? hfirst
  have hsearches := hpatterns pattern hpattern
  obtain ⟨above, last, hlast, rfl, hcomposes, hkeeps⟩ := hsearches.mem_glob h hglob hkey
  obtain ⟨hplain, hback⟩ := hsearches.lasts last hlast
  exact ⟨above, last, hlast, rfl, hcomposes, hkeeps, above, hcomposes.append_plain hplain,
    hkeeps.append_plain hplain, hplain, hback⟩

/-- An entry file that is found has one of its names. -/
theorem points_ofEntryFile {platform : Platform} {key : String}
    (hkey : ofEntryFile store t platform = .ok key) :
    ∃ last ∈ platform.entryNames, Store.Points t last key := by
  cases platform with
  | android =>
      obtain ⟨-, last, hlast, -, -, -, hpoints⟩ :=
        points_of_first? h (fun _ => searches_mainApplication) (locate_eq_ok.1 hkey)
      exact ⟨last, hlast, hpoints⟩
  | ios =>
      obtain ⟨-, last, hlast, -, -, -, hpoints⟩ :=
        points_of_first? h (fun _ => searches_appDelegate) (locate_eq_ok.1 hkey)
      exact ⟨last, hlast, hpoints⟩

/-- So has the property list that would be beside an AppDelegate. -/
theorem points_beside {delegate : String}
    (hdelegate : first? store t appDelegatePatterns = .ok (some delegate)) :
    Store.Points t propertyListName.toList (beside delegate propertyListName) := by
  obtain ⟨above, last, hlast, rfl, hcomposes, hkeeps, hpoints⟩ :=
    points_of_first? h (fun _ => searches_appDelegate) hdelegate
  have hplain : Path.IsPlain propertyListName.toList := by decide
  have hends : ∀ last ∈ Platform.ios.entryNames, Path.IsPlain last := by decide
  have hproper := (hcomposes.append_plain (hends last hlast)).isProper
  rw [beside_of_noSlash fun name hname => (hproper name hname).noSlash]
  exact ⟨above, hcomposes.append_plain hplain, hkeeps.append_plain hplain, hplain, by decide⟩

theorem points_ofPropertyList {key : String} (hkey : ofPropertyList store t = .ok key) :
    Store.Points t propertyListName.toList key := by
  rcases ofPropertyList_eq_ok.1 hkey with hbeside | ⟨-, hfirst⟩
  · rw [propertyListBeside?_eq] at hbeside
    split at hbeside
    · cases hbeside
    · cases hbeside
    · next delegate hdelegate =>
      split at hbeside
      · cases hbeside
      · split at hbeside
        · obtain rfl := Option.some.inj (Except.ok.inj hbeside)
          exact points_beside h hdelegate
        · cases hbeside
  · obtain ⟨-, last, hlast, -, -, -, hpoints⟩ :=
      points_of_first? h (fun _ => searches_propertyList) hfirst
    obtain rfl := List.mem_singleton.1 hlast
    exact hpoints

end Found

/-! ## The same is found -/

section Same

variable {store : Store} {t after : Tree}

theorem ofPropertyList_congr
    (hdelegate : first? store after appDelegatePatterns = first? store t appDelegatePatterns)
    (hlist : first? store after [propertyListPattern] = first? store t [propertyListPattern])
    (hbeside : ∀ delegate, first? store t appDelegatePatterns = .ok (some delegate) →
      store.has after (beside delegate propertyListName) =
        store.has t (beside delegate propertyListName)) :
    ofPropertyList store after = ofPropertyList store t := by
  have hsame : propertyListBeside? store after = propertyListBeside? store t := by
    rw [propertyListBeside?_eq, propertyListBeside?_eq, hdelegate]
    rcases hfound : first? store t appDelegatePatterns with fault | (_ | delegate)
    · rfl
    · rfl
    · simp only [hbeside delegate hfound]
  unfold ofPropertyList
  rw [hsame, locate_congr hlist]

section Overwriting

variable {news : News} (hnews : t.HasFilesFor news) (hunique : (t.entries.map Prod.fst).Nodup)

include hnews hunique

theorem ofEntryFile_overwrite (platform : Platform) :
    ofEntryFile store (t.overwrite news) platform = ofEntryFile store t platform := by
  cases platform with
  | android =>
      exact locate_congr (first?_congr fun _ hpattern =>
        (searches_mainApplication hpattern).glob_overwrite hnews hunique) _ _
  | ios =>
      exact locate_congr (first?_congr fun _ hpattern =>
        (searches_appDelegate hpattern).glob_overwrite hnews hunique) _ _

theorem ofPropertyList_overwrite :
    ofPropertyList store (t.overwrite news) = ofPropertyList store t :=
  ofPropertyList_congr
    (first?_congr fun _ hpattern => (searches_appDelegate hpattern).glob_overwrite hnews hunique)
    (first?_congr fun _ hpattern => (searches_propertyList hpattern).glob_overwrite hnews hunique)
    fun _ _ => Store.has_overwrite hnews _

end Overwriting

section Extending

variable (h : Store.Unlinked t store.root) (hafter : after.Linkless store.root)
  (hextends : Tree.Extends store.root stringTableNames t after)

include h hafter hextends

/-- The Android app has its sources and its strings in different directories. -/
theorem ofMainApplication_extends
    (hshort : Tree.octetCount (pathAt store.root ("android".toList :: sourceNames)).text <
      Tree.pathLimit) :
    ofMainApplication store after = ofMainApplication store t :=
  locate_congr (first?_congr fun _ hpattern => (searches_mainApplication hpattern).glob_extends_chain
    h.linkless hafter hextends (by decide) hshort) _ _

theorem first?_appDelegate_extends :
    first? store after appDelegatePatterns = first? store t appDelegatePatterns :=
  first?_congr fun _ hpattern =>
    (searches_appDelegate hpattern).glob_extends h.linkless hafter hextends (by decide)

theorem ofAppDelegate_extends : ofAppDelegate store after = ofAppDelegate store t :=
  locate_congr (first?_appDelegate_extends h hafter hextends) _ _

theorem ofPropertyList_extends : ofPropertyList store after = ofPropertyList store t := by
  refine ofPropertyList_congr (first?_appDelegate_extends h hafter hextends)
    (first?_congr fun _ hpattern =>
      (searches_propertyList hpattern).glob_extends h.linkless hafter hextends (by decide))
    fun _ hdelegate => ?_
  exact (points_beside h hdelegate).has_extends h.linkless hafter hextends (by decide)

end Extending

end Same

end Location

end BundleHook
