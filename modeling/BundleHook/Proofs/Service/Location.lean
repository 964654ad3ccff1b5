import BundleHook.Entry.Outcome
import BundleHook.Proofs.Glob.Files
import BundleHook.Proofs.Store.PlainKey
import BundleHook.Service.Location

/-!
# Where the files of a plain project are

The key of a file that is found spells its names, and its last name says which file it is. What is
made on the way to the table of strings fits none of the patterns, so that a file found afterwards
is the one that would have been found before.
-/

namespace BundleHook

open Glob (pathAt)

namespace Location

def stringTableNames : List Text :=
  ["android".toList, "app".toList, "src".toList, "main".toList, "res".toList, "values".toList,
    "strings.xml".toList]

theorem stringTableKey_eq : stringTableKey = Store.keyOf stringTableNames := by
  decide

theorem spells_stringTableNames : Store.Spells stringTableNames := by
  refine ⟨by decide, ?_⟩
  rintro first others ⟨⟩
  decide

/-! ## Patterns -/

/-- The names lead through a directory to a file whose name begins with `name`, and which is not met
on the way to the table of strings. -/
def Names (name : String) (names : List Text) : Prop :=
  ∃ first above last, names = first :: (above ++ [last]) ∧ first.head? ≠ some '\\' ∧
    name.toList <+: last ∧ last ∉ stringTableNames

/-- What fits the pattern are such names. -/
def Leads (name pattern : String) : Prop :=
  ∃ steps, Glob.steps pattern.toList = .ok steps ∧ Glob.SpellsPlain steps ∧
    ∀ names, Glob.Fits steps names → Names name names

theorem leads_of_steps {first last : Text} {name pattern : String} (middle : List Glob.Step)
    (hsteps : Glob.steps pattern.toList = .ok (.exactly first :: (middle ++ [.exactly last])))
    (hplain : Glob.SpellsPlain (.exactly first :: (middle ++ [.exactly last])))
    (hfirst : first.head? ≠ some '\\') (hname : name.toList <+: last)
    (hlast : last ∉ stringTableNames) : Leads name pattern := by
  refine ⟨_, hsteps, hplain, fun names hfits => ?_⟩
  obtain ⟨rest, rfl, htail⟩ := hfits.exactly_cons
  obtain ⟨above, rfl⟩ := htail.append_exactly
  exact ⟨first, above, last, rfl, hfirst, hname, hlast⟩

theorem leads_mainApplication {pattern : String} (h : pattern ∈ mainApplicationPatterns) :
    Leads "MainApplication" pattern := by
  have hleads (last : Text) := @leads_of_steps "android".toList last "MainApplication" pattern
    [.exactly "app".toList, .exactly "src".toList, .exactly "main".toList, .exactly "java".toList,
      .anyDepth]
  rcases List.mem_cons.1 h with rfl | h
  · exact hleads "MainApplication.kt".toList (by cbv) (by decide) (by decide) (by decide)
      (by decide)
  · obtain rfl := List.mem_singleton.1 h
    exact hleads "MainApplication.java".toList (by cbv) (by decide) (by decide) (by decide)
      (by decide)

theorem leads_appDelegate {pattern : String} (h : pattern ∈ appDelegatePatterns) :
    Leads "AppDelegate" pattern := by
  have hleads (last : Text) :=
    @leads_of_steps "ios".toList last "AppDelegate" pattern [.like [.star]]
  simp only [appDelegatePatterns, List.mem_cons, List.not_mem_nil, or_false] at h
  rcases h with rfl | rfl | rfl
  · exact hleads "AppDelegate.swift".toList (by cbv) (by decide) (by decide) (by decide) (by decide)
  · exact hleads "AppDelegate.mm".toList (by cbv) (by decide) (by decide) (by decide) (by decide)
  · exact hleads "AppDelegate.m".toList (by cbv) (by decide) (by decide) (by decide) (by decide)

theorem leads_propertyList {pattern : String} (h : pattern ∈ [propertyListPattern]) :
    Leads propertyListName pattern := by
  obtain rfl := List.mem_singleton.1 h
  exact @leads_of_steps "ios".toList "Info.plist".toList _ _ [.like [.star]] (by cbv) (by decide)
    (by decide) (by decide) (by decide)

theorem Names.not_on_way {name : String} {names : List Text} (h : Names name names) :
    ¬names <+: stringTableNames := by
  obtain ⟨first, above, last, rfl, -, -, hlast⟩ := h
  exact fun hpre => hlast (hpre.subset (by simp))

/-- The names of a file spell its key. -/
theorem Names.spells {store : Store} {t : Tree} (hplain : t.Plain store.root) {name : String}
    {names : List Text} (h : Names name names)
    (hfile : (t.fileAt (pathAt store.root names)).isSome = true) : Store.Spells names := by
  obtain ⟨first, above, last, rfl, hfirst, -⟩ := h
  refine ⟨Glob.isPlain_of_file hplain hfile, ?_⟩
  rintro _ _ ⟨⟩
  exact hfirst

/-! ## The first file -/

section First

variable {store : Store} {t : Tree} {name : String}

theorem glob_of_steps {pattern : String} {steps : List Glob.Step}
    (hsteps : Glob.steps pattern.toList = .ok steps) :
    store.glob t pattern =
      match Glob.selectedTexts t store.root steps with
      | .ok texts => .ok (texts.map String.ofList)
      | .error path => .error (.refused ⟨.longName, path⟩) := by
  unfold Store.glob
  simp only [hsteps, Except.mapError, bind, Except.bind]
  rcases Glob.selectedTexts t store.root steps with path | texts <;> rfl

theorem first?_cons (pattern : String) (others : List String) :
    first? store t (pattern :: others) =
      match store.glob t pattern with
      | .ok keys => if keys.head?.isSome then .ok keys.head? else first? store t others
      | .error fault => .error fault := by
  rw [first?]
  rcases store.glob t pattern with fault | (_ | ⟨key, keys⟩) <;> simp [bind, Except.bind, pure,
    Except.pure]

variable (h : t.Plain store.root)

include h

/-- The key of a file that is found spells its names. -/
theorem names_of_first? {patterns : List String}
    (hleads : ∀ pattern ∈ patterns, Leads name pattern) {key : String}
    (hfirst : first? store t patterns = .ok (some key)) :
    ∃ names, key = Store.keyOf names ∧ Names name names ∧
      (t.fileAt (pathAt store.root names)).isSome = true ∧
      Tree.octetCount (pathAt store.root names).text < Tree.pathLimit := by
  induction patterns with
  | nil => cases hfirst
  | cons pattern others ih =>
      have hothers := ih fun pattern hmem => hleads pattern (List.mem_cons_of_mem _ hmem)
      obtain ⟨steps, hsteps, hplain, hnames⟩ := hleads pattern List.mem_cons_self
      rw [first?_cons, glob_of_steps hsteps] at hfirst
      rcases htexts : Glob.selectedTexts t store.root steps with path | texts
      · rw [htexts] at hfirst
        cases hfirst
      rw [htexts] at hfirst
      simp only at hfirst
      split at hfirst
      · have hkey : key ∈ texts.map String.ofList := List.mem_of_head? (Except.ok.inj hfirst)
        obtain ⟨text, htext, rfl⟩ := List.mem_map.1 hkey
        obtain ⟨names, rfl, hfits, hfound⟩ := Glob.fits_of_mem_selectedTexts h hplain htexts htext
        exact ⟨names, rfl, hnames names hfits, hfound⟩
      · exact hothers hfirst

/-- A search that goes through in the grown project went through before, and found the same. -/
theorem first?_of_grows {after : Tree} (hafter : after.Plain store.root)
    (hgrows : Tree.Grows store.root stringTableNames t after) {patterns : List String}
    (hleads : ∀ pattern ∈ patterns, Leads name pattern) {found : Option String}
    (hfirst : first? store after patterns = .ok found) : first? store t patterns = .ok found := by
  induction patterns with
  | nil => exact hfirst
  | cons pattern others ih =>
      have hothers := ih fun pattern hmem => hleads pattern (List.mem_cons_of_mem _ hmem)
      obtain ⟨steps, hsteps, hplain, hnames⟩ := hleads pattern List.mem_cons_self
      rw [first?_cons, glob_of_steps hsteps] at hfirst ⊢
      rcases hlater : Glob.selectedTexts after store.root steps with path | later
      · rw [hlater] at hfirst
        cases hfirst
      obtain ⟨texts, htexts, hhead⟩ := Glob.selectedTexts_of_grows h hplain hafter hgrows
        (fun names hfits => (hnames names hfits).not_on_way) hlater
      rw [hlater] at hfirst
      rw [htexts]
      simp only [List.head?_map, hhead] at hfirst ⊢
      split at hfirst
      · next hsome => rwa [if_pos hsome]
      · next hnone =>
        rw [if_neg hnone]
        exact hothers hfirst

end First

/-! ## Files of a project -/

/-- The key spells names of which the last begins with `name`. -/
def Spelled (name key : String) : Prop :=
  ∃ above last, key = Store.keyOf (above ++ [last]) ∧ Store.Spells (above ++ [last]) ∧
    name.toList <+: last

theorem Names.spelled {name : String} {names : List Text} (h : Names name names)
    (hspells : Store.Spells names) : Spelled name (Store.keyOf names) := by
  obtain ⟨first, above, last, rfl, -, hname, -⟩ := h
  exact ⟨first :: above, last, rfl, hspells, hname⟩

theorem spelled_stringTable : Spelled "strings.xml" stringTableKey :=
  ⟨stringTableNames.dropLast, "strings.xml".toList, stringTableKey_eq, spells_stringTableNames,
    List.prefix_refl _⟩

theorem beside_of_noSlash {above : List Text} {last : Text}
    (h : ∀ name ∈ above ++ [last], '/' ∉ name) (name : String) :
    beside (Store.keyOf (above ++ [last])) name = Store.keyOf (above ++ [name.toList]) := by
  have hsplit : Text.splitOn '/' (Text.join ['/'] (above ++ [last])) = above ++ [last] :=
    Text.splitOn_join (by simp) h
  simp only [beside, Store.keyOf, String.toList_ofList, hsplit]
  simp

theorem beside_keyOf {above : List Text} {last : Text} (h : Store.Spells (above ++ [last]))
    (name : String) :
    beside (Store.keyOf (above ++ [last])) name = Store.keyOf (above ++ [name.toList]) :=
  beside_of_noSlash (fun n hn => (h.isPlain n hn).noSlash) name

section Files

variable {store : Store} {t after : Tree}

theorem locate_eq_ok {platform : Platform} {name key : String} {patterns : List String} :
    locate store t platform name patterns = .ok key ↔ first? store t patterns = .ok (some key) := by
  unfold locate
  rcases first? store t patterns with fault | (_ | other) <;>
    simp [Except.mapError, bind, Except.bind, pure, Except.pure, throw, throwThe,
      MonadExceptOf.throw]

theorem propertyListBeside?_eq :
    propertyListBeside? store t =
      match first? store t appDelegatePatterns with
      | .error fault => .error (.store fault)
      | .ok none => .ok none
      | .ok (some delegate) =>
        match store.has t (beside delegate propertyListName) with
        | .error fault => .error (.store fault)
        | .ok there => .ok (if there then some (beside delegate propertyListName) else none) := by
  unfold propertyListBeside? ofAppDelegate locate
  rcases first? store t appDelegatePatterns with fault | (_ | delegate)
  · rfl
  · rfl
  · simp only [Except.mapError, bind, Except.bind, pure, Except.pure]
    rcases store.has t (beside delegate propertyListName) with fault | there <;> rfl

theorem exists_fault_of_propertyListBeside? {hindrance : Hindrance}
    (h : propertyListBeside? store t = .error hindrance) : ∃ fault, hindrance = .store fault := by
  rw [propertyListBeside?_eq] at h
  split at h
  · next fault _ => exact ⟨fault, (Except.error.inj h).symm⟩
  · cases h
  · split at h
    · next fault _ => exact ⟨fault, (Except.error.inj h).symm⟩
    · cases h

theorem ofPropertyList_eq_ok {key : String} :
    ofPropertyList store t = .ok key ↔ propertyListBeside? store t = .ok (some key) ∨
      propertyListBeside? store t = .ok none ∧
        first? store t [propertyListPattern] = .ok (some key) := by
  rw [← @locate_eq_ok store t .ios propertyListName]
  unfold ofPropertyList
  rcases propertyListBeside? store t with hindrance | (_ | other) <;>
    simp [bind, Except.bind, pure, Except.pure]

variable (h : t.Plain store.root)

include h

theorem names_ofEntryFile {platform : Platform} {key : String}
    (hkey : ofEntryFile store t platform = .ok key) :
    ∃ names, key = Store.keyOf names ∧ Names platform.entryName names ∧
      (t.fileAt (pathAt store.root names)).isSome = true ∧
      Tree.octetCount (pathAt store.root names).text < Tree.pathLimit := by
  cases platform with
  | android => exact names_of_first? h (fun _ => leads_mainApplication) (locate_eq_ok.1 hkey)
  | ios => exact names_of_first? h (fun _ => leads_appDelegate) (locate_eq_ok.1 hkey)

theorem spelled_ofEntryFile {platform : Platform} {key : String}
    (hkey : ofEntryFile store t platform = .ok key) : Spelled platform.entryName key := by
  obtain ⟨names, rfl, hnames, hfile, -⟩ := names_ofEntryFile h hkey
  exact hnames.spelled (hnames.spells h hfile)

theorem isSome_ofEntryFile {platform : Platform} {key : String}
    (hkey : ofEntryFile store t platform = .ok key) :
    (t.fileAt (store.placeOf key)).isSome = true := by
  obtain ⟨names, rfl, hnames, hfile, -⟩ := names_ofEntryFile h hkey
  obtain ⟨first, above, last, hlist, -⟩ := id hnames
  rwa [Store.placeOf_keyOf (hnames.spells h hfile) (by simp [hlist])]

/-- An entry file that is found can be read. -/
theorem read_ofEntryFile {platform : Platform} {key : String}
    (hkey : ofEntryFile store t platform = .ok key) {octets : Contents}
    (hoctets : t.fileAt (store.placeOf key) = some octets) : store.read t key = .ok octets := by
  obtain ⟨names, rfl, hnames, hfile, hshort⟩ := names_ofEntryFile h hkey
  have hspells := hnames.spells h hfile
  obtain ⟨first, above, last, hlist, -⟩ := id hnames
  have hne : names ≠ [] := by simp [hlist]
  rw [Store.placeOf_keyOf hspells hne] at hoctets
  exact Store.read_of_fileAt hspells hne h hoctets hshort

/-- The names of the property list that would be beside the AppDelegate. -/
theorem names_beside {delegate : String}
    (hdelegate : first? store t appDelegatePatterns = .ok (some delegate)) :
    ∃ names, beside delegate propertyListName = Store.keyOf names ∧
      Names propertyListName names ∧ Store.Spells names := by
  obtain ⟨names, rfl, hnames, hfile, -⟩ :=
    names_of_first? h (fun _ => leads_appDelegate) hdelegate
  have hspells := hnames.spells h hfile
  obtain ⟨first, above, last, rfl, hfirst, -⟩ := hnames
  have hbeside := @beside_keyOf (first :: above) last hspells propertyListName
  refine ⟨_, hbeside, ⟨first, above, _, rfl, hfirst, List.prefix_refl _, by decide⟩, ?_, ?_⟩
  · intro name hname
    rcases List.mem_append.1 hname with hname | hname
    · exact hspells.isPlain name (List.mem_append_left _ hname)
    · rw [List.mem_singleton.1 hname]
      decide
  · rintro _ _ ⟨⟩
    exact hfirst

theorem spelled_ofPropertyList {key : String} (hkey : ofPropertyList store t = .ok key) :
    Spelled propertyListName key := by
  rcases ofPropertyList_eq_ok.1 hkey with hbeside | ⟨-, hfirst⟩
  · rw [propertyListBeside?_eq] at hbeside
    split at hbeside
    · cases hbeside
    · cases hbeside
    · next delegate hdelegate =>
      split at hbeside
      · cases hbeside
      · obtain ⟨names, hnames, hthese, hspells⟩ := names_beside h hdelegate
        split at hbeside
        · obtain rfl := Option.some.inj (Except.ok.inj hbeside)
          rw [hnames]
          exact hthese.spelled hspells
        · cases hbeside
  · obtain ⟨names, rfl, hnames, hfile, -⟩ :=
      names_of_first? h (fun _ => leads_propertyList) hfirst
    exact hnames.spelled (hnames.spells h hfile)

variable (hafter : after.Plain store.root)
  (hgrows : Tree.Grows store.root stringTableNames t after)

include hafter hgrows

/-- A file that is found in the grown project was found before. -/
theorem ofEntryFile_of_grows {platform : Platform} {key : String}
    (hkey : ofEntryFile store after platform = .ok key) :
    ofEntryFile store t platform = .ok key := by
  cases platform with
  | android =>
      exact locate_eq_ok.2 (first?_of_grows h hafter hgrows (fun _ => leads_mainApplication)
        (locate_eq_ok.1 hkey))
  | ios =>
      exact locate_eq_ok.2 (first?_of_grows h hafter hgrows (fun _ => leads_appDelegate)
        (locate_eq_ok.1 hkey))

theorem propertyListBeside?_of_grows {found : Option String}
    (hfound : propertyListBeside? store after = .ok found) :
    propertyListBeside? store t = .ok found := by
  rw [propertyListBeside?_eq] at hfound ⊢
  rcases hdelegate : first? store after appDelegatePatterns with fault | delegate?
  · rw [hdelegate] at hfound
    cases hfound
  have hbefore := first?_of_grows h hafter hgrows (fun _ => leads_appDelegate) hdelegate
  rw [hdelegate] at hfound
  rw [hbefore]
  cases delegate? with
  | none => exact hfound
  | some delegate =>
      obtain ⟨names, hnames, hthese, hspells⟩ := names_beside h hbefore
      obtain ⟨first, above, last, hlist, -⟩ := id hthese
      have hne : names ≠ [] := by simp [hlist]
      have hkind := hgrows.kind_off_way hthese.not_on_way
      have hsame : store.has after (beside delegate propertyListName) =
          store.has t (beside delegate propertyListName) := by
        rw [hnames, Store.has_keyOf hspells hne hafter, Store.has_keyOf hspells hne h,
          ← Option.isSome_map, hkind, Option.isSome_map]
      simp only [hsame] at hfound
      exact hfound

theorem ofPropertyList_of_grows {key : String} (hkey : ofPropertyList store after = .ok key) :
    ofPropertyList store t = .ok key := by
  rw [ofPropertyList_eq_ok] at hkey ⊢
  refine hkey.imp (propertyListBeside?_of_grows h hafter hgrows) ?_
  rintro ⟨hnone, hfirst⟩
  exact ⟨propertyListBeside?_of_grows h hafter hgrows hnone,
    first?_of_grows h hafter hgrows (fun _ => leads_propertyList) hfirst⟩

/-- What a search comes to in the grown project, it came to before, unless a name is too long
there. -/
theorem locate_of_grows {platform : Platform} {name : String} {patterns : List String}
    (hleads : ∀ pattern ∈ patterns, Leads name pattern)
    (hanswers : ∀ fault, locate store after platform name patterns ≠ .error (.store fault)) :
    locate store t platform name patterns = locate store after platform name patterns := by
  rcases hfirst : first? store after patterns with fault | found
  · refine absurd ?_ (hanswers fault)
    unfold locate
    rw [hfirst]
    rfl
  · unfold locate
    rw [first?_of_grows h hafter hgrows hleads hfirst, hfirst]

theorem search_ofEntryFile_of_grows {platform : Platform}
    (hanswers : ∀ fault, ofEntryFile store after platform ≠ .error (.store fault)) :
    ofEntryFile store t platform = ofEntryFile store after platform := by
  cases platform with
  | android => exact locate_of_grows h hafter hgrows (fun _ => leads_mainApplication) hanswers
  | ios => exact locate_of_grows h hafter hgrows (fun _ => leads_appDelegate) hanswers

theorem search_ofPropertyList_of_grows
    (hanswers : ∀ fault, ofPropertyList store after ≠ .error (.store fault)) :
    ofPropertyList store t = ofPropertyList store after := by
  unfold ofPropertyList at hanswers ⊢
  rcases hbeside : propertyListBeside? store after with hindrance | found
  · obtain ⟨fault, rfl⟩ := exists_fault_of_propertyListBeside? hbeside
    rw [hbeside] at hanswers
    exact absurd rfl (hanswers fault)
  · rw [hbeside] at hanswers
    rw [propertyListBeside?_of_grows h hafter hgrows hbeside]
    cases found with
    | some key => rfl
    | none => exact locate_of_grows h hafter hgrows (fun _ => leads_propertyList) hanswers

end Files

end Location

end BundleHook
