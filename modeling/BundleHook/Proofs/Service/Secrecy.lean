import BundleHook.Proofs.PropertyList.Fate
import BundleHook.Proofs.Service.Acceptance
import BundleHook.Proofs.Service.Steadiness
import BundleHook.Proofs.Service.TwoRuns

/-!
# A token is told to nobody

Two runs over one project without links, with different tokens neither of which the project has yet,
come to the same report and tell the same. What they leave behind differs in the table of strings and
in the property list at most.

* `Twins` — what two such runs have come to;
* `alike_stringTable`, `alike_propertyList`, `alike_entry` — their services;
* `run_keeps_token` — runs.
-/

namespace BundleHook

open Glob (pathAt)
open Markup (IsLegal isForbidden isSpace)

/-! ## Tokens -/

/-- The key that a token is stored under. -/
def tokenKey : Text := "StallionAppToken".toList

/-- A token that every resource can hold. -/
structure IsToken (token : String) : Prop where
  begins : Credentials.tokenStart.toList <+: token.toList
  isLegal : IsLegal token.toList
  noReturn : '\r' ∉ token.toList

/-- The resource of the platform has the token already. -/
def Platform.Stores (store : Store) (t : Tree) (token : String) : Platform → Prop
  | android => ∃ current root, store.textOrNothing t Location.stringTableKey = .ok current ∧
      StringTable.read current = .ok root ∧
      StringTable.find? root.children tokenKey = some token.toList
  | ios => ∃ key current document, Location.ofPropertyList store t = .ok key ∧
      store.read t key = .ok current ∧ PropertyList.Document.read current = .ok document ∧
      document.hasAll [(tokenKey, token.toList)] = true

/-- The property list with the credentials is not too long for its offsets. -/
def HasRoomFor (store : Store) (t : Tree) (credentials : Credentials) : Prop :=
  ∀ key current document, Location.ofPropertyList store t = .ok key →
    store.read t key = .ok current → PropertyList.Document.read current = .ok document →
    (document.setAll credentials.items).HasRoom

/-- A token that the project does not have yet and that it has room for. -/
structure IsNew (store : Store) (t : Tree) (projectId : Option String) (token : String) : Prop where
  fresh : ∀ platform : Platform, ¬platform.Stores store t token
  room : HasRoomFor store t ⟨projectId, some token⟩

namespace IsToken

variable {token : String} (h : IsToken token)

include h

theorem isBlankText_eq_false : Text.isBlankText token.toList = false := by
  obtain ⟨rest, hrest⟩ := h.begins
  rw [← hrest]
  rfl

theorem isWritable : (PropertyList.Value.text token.toList).IsWritable := by
  refine List.any_eq_false.2 fun c hc => ?_
  have hlegal := h.isLegal c hc
  simp only [isForbidden, Bool.or_eq_false_iff] at hlegal
  rw [PropertyList.isControl]
  by_cases hlow : c.toNat < 0x20
  · have hspace : c ≠ ' ' := by
      rintro rfl
      exact absurd hlow (by decide)
    simpa [hlow, isSpace, hspace] using hlegal.1.1
  · simp [hlow]

theorem areGiven (projectId : Option String) :
    (Credentials.mk projectId (some token)).areGiven = Credentials.isGiven projectId := by
  have hne : token ≠ "" := by
    rintro rfl
    exact absurd h.begins (by decide)
  simp [Credentials.areGiven, Credentials.isGiven, hne]

theorem failure?_eq_none (projectId : Option String) :
    (Credentials.mk projectId (some token)).failure? = none := by
  simp [Credentials.failure?, List.isPrefixOf_iff_prefix.2 h.begins]

end IsToken

/-! ## What is to be written -/

theorem items_of_token (projectId : Option String) (token : String) :
    (Credentials.mk projectId (some token)).items =
      [("StallionProjectId".toList, (projectId.getD "").toList)] ++ [(tokenKey, token.toList)] :=
  rfl

theorem mem_items_of_token (projectId : Option String) (token : String) :
    (tokenKey, token.toList) ∈ (Credentials.mk projectId (some token)).items := by
  rw [items_of_token]
  exact List.mem_append_right _ (List.mem_singleton_self _)

section Updates

variable {projectId : Option String} {token other : String} (htoken : IsToken token)

include htoken

/-- A token that is new makes new strings. -/
theorem exists_updatedStrings {current : Text} {root : Markup.Node}
    (hread : StringTable.read current = .ok root)
    (hnew : StringTable.find? root.children tokenKey ≠ some token.toList) :
    ∃ updated, Project.updatedStrings current ⟨projectId, some token⟩ = .ok updated ∧
      updated ≠ current := by
  obtain ⟨updated, hupdated⟩ : ∃ updated, StringTable.upsert current
      (Credentials.mk projectId (some token)).items = .ok updated := by
    rw [StringTable.upsert, hread]
    exact ⟨_, rfl⟩
  exact ⟨updated, Duty.updatedStrings_eq_ok.2 hupdated,
    StringTable.upsert_ne_self hread hupdated (Credentials.hasPlainKeys_items _).nodup
      (mem_items_of_token projectId token) htoken.isBlankText_eq_false htoken.noReturn hnew⟩

/-- A token that is new makes a new property list. -/
theorem updatedProperties_ne {current updated : Contents} {document : PropertyList.Document}
    (hread : PropertyList.Document.read current = .ok document)
    (hnew : document.hasAll [(tokenKey, token.toList)] = false)
    (hupdated : Project.updatedProperties current ⟨projectId, some token⟩ = .ok updated) :
    updated ≠ current :=
  PropertyList.upsert_ne_self (Credentials.hasPlainKeys_items _) (mem_items_of_token projectId token)
    htoken.noReturn hread hnew (Duty.updatedProperties_eq_ok.1 hupdated)

variable (hother : IsToken other)

include hother

/-- Strings with one new token or another are updated alike. -/
theorem updatedStrings_alike {current : Text}
    (hnew : ∀ root, StringTable.read current = .ok root → ∀ one ∈ [token, other],
      StringTable.find? root.children tokenKey ≠ some one.toList) :
    (∃ hindrance, Project.updatedStrings current ⟨projectId, some token⟩ = .error hindrance ∧
        Project.updatedStrings current ⟨projectId, some other⟩ = .error hindrance) ∨
      ∃ updated updated', Project.updatedStrings current ⟨projectId, some token⟩ = .ok updated ∧
        Project.updatedStrings current ⟨projectId, some other⟩ = .ok updated' ∧
        updated ≠ current ∧ updated' ≠ current := by
  rcases hread : StringTable.read current with flaw | root
  · have hflawed (credentials : Credentials) : Project.updatedStrings current credentials =
        .error (.failure (flaw.failure current)) := by
      rw [Project.updatedStrings, StringTable.upsert, hread]
      rfl
    exact .inl ⟨_, hflawed _, hflawed _⟩
  · obtain ⟨updated, hupdated, hne⟩ :=
      @exists_updatedStrings projectId _ htoken _ _ hread (hnew root hread token (by simp))
    obtain ⟨updated', hupdated', hne'⟩ :=
      @exists_updatedStrings projectId _ hother _ _ hread (hnew root hread other (by simp))
    exact .inr ⟨updated, updated', hupdated, hupdated', hne, hne'⟩

/-- So are property lists. -/
theorem updatedProperties_alike {current : Contents}
    (hnew : ∀ document, PropertyList.Document.read current = .ok document →
      ∀ one ∈ [token, other], document.hasAll [(tokenKey, one.toList)] = false ∧
        (document.setAll (Credentials.mk projectId (some one)).items).HasRoom) :
    (∃ hindrance, Project.updatedProperties current ⟨projectId, some token⟩ = .error hindrance ∧
        Project.updatedProperties current ⟨projectId, some other⟩ = .error hindrance) ∨
      ∃ updated updated', Project.updatedProperties current ⟨projectId, some token⟩ = .ok updated ∧
        Project.updatedProperties current ⟨projectId, some other⟩ = .ok updated' ∧
        updated ≠ current ∧ updated' ≠ current := by
  have hfate := @PropertyList.fate_upsert current
    [("StallionProjectId".toList, (projectId.getD "").toList)] tokenKey token.toList other.toList
    htoken.isWritable hother.isWritable fun document hread => by
      obtain ⟨hnotToken, hroomToken⟩ := hnew document hread token (by simp)
      obtain ⟨hnotOther, hroomOther⟩ := hnew document hread other (by simp)
      exact ⟨hnotToken, hnotOther, hroomToken, hroomOther⟩
  rw [← items_of_token, ← items_of_token] at hfate
  rcases hupdated : PropertyList.upsert current (Credentials.mk projectId (some token)).items with
    problem | updated
  · rw [hupdated, fate_error, eq_comm, fate_eq_error] at hfate
    refine .inl ⟨_, by rw [Project.updatedProperties, hupdated]; rfl, ?_⟩
    rw [Project.updatedProperties, hfate]
    rfl
  · obtain ⟨updated', hupdated'⟩ := exists_ok_of_fate (hfate.symm.trans (by rw [hupdated, fate_ok]))
    have hupdated := Duty.updatedProperties_eq_ok.2 hupdated
    have hupdated' := Duty.updatedProperties_eq_ok.2 hupdated'
    obtain ⟨document, hread, -⟩ := PropertyList.upsert_eq_ok (Duty.updatedProperties_eq_ok.1 hupdated)
    exact .inr ⟨updated, updated', hupdated, hupdated',
      updatedProperties_ne htoken hread (hnew document hread token (by simp)).1 hupdated,
      updatedProperties_ne hother hread (hnew document hread other (by simp)).1 hupdated'⟩

end Updates

/-! ## Twins -/

/-- Two projects that have come from `t`: what they have for the files that have new contents may
differ where `secret` says. -/
structure Split (store : Store) (t : Tree) (secret : Path → Prop) (used : List Text) (base : Tree)
    (news news' : News) : Prop where
  unlinked : Store.Unlinked base store.root
  grown : Tree.Extends store.root Location.stringTableNames t base
  moved : Moved store used base base news
  moved' : Moved store used base base news'
  agree : ∀ p, news p ≠ news' p → secret p

/-- Two trees that come from one in this way. -/
def Twins (store : Store) (t : Tree) (secret : Path → Prop) (used : List Text) (one two : Tree) :
    Prop :=
  ∃ base news news', Split store t secret used base news news' ∧ one = base.overwrite news ∧
    two = base.overwrite news'

section Twins

variable {store : Store} {t : Tree} {secret : Path → Prop} {used more : List Text} {one two : Tree}

theorem Twins.mono (h : Twins store t secret used one two) (hmore : used ⊆ more) :
    Twins store t secret more one two := by
  obtain ⟨base, news, news', hsplit, hone, htwo⟩ := h
  exact ⟨base, news, news', { hsplit with moved := hsplit.moved.mono hmore
                                          moved' := hsplit.moved'.mono hmore }, hone, htwo⟩

theorem twins_same (h : Store.Unlinked t store.root) {made : Tree}
    (hmade : made.Linkless store.root)
    (hgrown : Tree.Extends store.root Location.stringTableNames t made) :
    Twins store t secret used made made := by
  have hplain : ∀ name ∈ Location.stringTableNames, Path.IsPlain name :=
    Location.spells_stringTableNames.isPlain
  exact ⟨made, .nothing, .nothing, ⟨h.of_extends hmade hgrown hplain, hgrown,
    .nothing hmade used, .nothing hmade used, fun _ hne => absurd rfl hne⟩,
    (Tree.overwrite_nothing made).symm, (Tree.overwrite_nothing made).symm⟩

/-- Twins differ in what is secret only. -/
theorem Twins.entry?_eq (h : Twins store t secret used one two) {p : Path}
    (hne : one.entry? p ≠ two.entry? p) : secret p := by
  obtain ⟨base, news, news', hsplit, rfl, rfl⟩ := h
  refine hsplit.agree p fun hsame => hne ?_
  rw [Tree.entry?_overwrite hsplit.moved.held, Tree.entry?_overwrite hsplit.moved'.held, hsame]

end Twins

/-! ## Services -/

section Services

variable {store : Store} {dryRun : Bool} {t : Tree} {secret : Path → Prop} {used : List Text}
  {one two : Tree}

/-- A steady duty writes the file that it finds in both trees, the same contents or others if the
file is a secret one. -/
theorem Split.write {duty : Duty} (hsteady : duty.Steady store) {base : Tree} {news news' : News}
    (h : Split store t secret used base news news') {key : String} (hplace : duty.place base = .ok key)
    {held : Contents} (hread : store.read base key = .ok held) {contents contents' : Contents}
    (hsecret : contents ≠ contents' → ∀ q held, store.Finds base key q held → secret q) :
    (store.write (base.overwrite news) key contents).1 =
        (store.write (base.overwrite news') key contents').1 ∧
      Twins store t secret (duty.endings ++ used) (store.write (base.overwrite news) key contents).2
        (store.write (base.overwrite news') key contents').2 := by
  obtain ⟨q, found, hfinds, hwrite, hmoved⟩ :=
    hsteady.write_moved h.unlinked h.moved hplace hread contents
  obtain ⟨q', found', hfinds', hwrite', hmoved'⟩ :=
    hsteady.write_moved h.unlinked h.moved' hplace hread contents'
  obtain ⟨rfl, -⟩ := hfinds.unique hfinds'
  rw [hwrite, hwrite']
  refine ⟨rfl, base, _, _, ⟨h.unlinked, h.grown, hmoved, hmoved', fun p hne => ?_⟩, rfl, rfl⟩
  by_cases hp : p = q
  · subst hp
    refine hsecret (fun heq => hne ?_) p found hfinds
    rw [News.add, News.add, if_pos rfl, if_pos rfl, heq]
  · rw [News.add, News.add, if_neg hp, if_neg hp] at hne
    exact h.agree p hne

open Work in
/-- Both runs patch the same entry file in the same way. -/
theorem alike_entry (platform : Platform) (h : Twins store t secret used one two)
    (hapart : EndApart used platform.entryNames) :
    Alike ((Project.mk store dryRun).patchPlatform platform)
      ((Project.mk store dryRun).patchPlatform platform) one two
      (Twins store t secret (platform.entryNames ++ used)) := by
  have hsteady := Duty.steady_ofEntry store platform
  have hmore := h.mono (List.subset_append_right platform.entryNames used)
  obtain ⟨base, news, news', hsplit, rfl, rfl⟩ := h
  have hplace := hsteady.place_moved hsplit.unlinked hsplit.moved
  have hplace' := hsteady.place_moved hsplit.unlinked hsplit.moved'
  refine Project.alike_patchPlatform hmore platform (hplace.trans hplace'.symm) fun key hkey => ?_
  have hkey := hplace.symm.trans hkey
  have hread := hsteady.read_moved hsplit.unlinked hsplit.moved hkey hapart
  have hread' := hsteady.read_moved hsplit.unlinked hsplit.moved' hkey hapart
  refine Project.alike_patchAt hmore platform (Duty.readAsText_congr (hread.trans hread'.symm))
    fun text contents htext _ => ?_
  obtain ⟨held, hheld⟩ : ∃ held, store.read base key = .ok held := by
    rcases hfound : store.read base key with fault | held
    · rw [Store.readAsText_of_read_error (hread.trans hfound)] at htext
      cases htext
    · exact ⟨held, rfl⟩
  exact hsplit.write hsteady hkey hheld fun hne => absurd rfl hne

end Services

section Tokens

variable {store : Store} {dryRun : Bool} {t : Tree} {secret : Path → Prop}
  {projectId : Option String} {token other : String} (htoken : IsToken token)
  (hother : IsToken other) (hnew : ∀ new ∈ [token, other], IsNew store t projectId new)
  (h : Store.Unlinked t store.root)

include htoken hother hnew h

open Work in
/-- Two tokens go into the table of strings of one project. -/
theorem alike_stringTable
    (hsecret : secret (pathAt store.root Location.stringTableNames)) :
    Alike ((Project.mk store dryRun).updateStringTable ⟨projectId, some token⟩)
      ((Project.mk store dryRun).updateStringTable ⟨projectId, some other⟩) t t
      (Twins store t secret ["strings.xml".toList]) := by
  have hplain : ∀ name ∈ Location.stringTableNames, Path.IsPlain name :=
    Location.spells_stringTableNames.isPlain
  unfold Project.updateStringTable
  simp only [Project.currentStrings_eq]
  refine Project.alike_resource (twins_same h h.linkless (.refl _ _ t)) .stringTable rfl
    fun current hcurrent => ?_
  refine (updatedStrings_alike htoken hother fun root hroot new hmem hstored => ?_).imp_right ?_
  · exact (hnew new hmem).fresh .android ⟨current, root, hcurrent, hroot, hstored⟩
  rintro ⟨updated, updated', hfirst, hsecond, hne, hne'⟩
  refine ⟨updated, updated', hfirst, hsecond, hne, hne', fun _ => ?_⟩
  -- The table is refused alike, or written over in one and the same project.
  rcases moved_of_write h.linkless with ⟨refusal, made, hmade, hgrown, hrefused⟩ | ⟨between, hwritten⟩
  · rw [hrefused, hrefused]
    exact ⟨rfl, twins_same h hmade hgrown⟩
  · obtain ⟨hwrite, hmoved⟩ := hwritten (Utf8.encode updated)
    obtain ⟨hwrite', hmoved'⟩ := hwritten (Utf8.encode updated')
    rw [hwrite, hwrite']
    refine ⟨rfl, between, _, _, ⟨h.of_extends hmoved.linkless hmoved.grown hplain, hmoved.grown,
      hmoved.from_here, hmoved'.from_here, fun p hdiffers => ?_⟩, rfl, rfl⟩
    by_cases hp : p = pathAt store.root Location.stringTableNames
    · rwa [hp]
    · rw [News.add, News.add, if_neg hp, if_neg hp] at hdiffers
      exact absurd rfl hdiffers

open Work in
/-- Two tokens go into the property list, which is as it was in the project. -/
theorem alike_propertyList {used : List Text} {one two : Tree}
    (htwins : Twins store t secret used one two)
    (hapart : EndApart used ["Info.plist".toList])
    (hsecret : ∀ key q held, Location.ofPropertyList store t = .ok key →
      store.Finds t key q held → secret q) :
    Alike ((Project.mk store dryRun).updatePropertyList ⟨projectId, some token⟩)
      ((Project.mk store dryRun).updatePropertyList ⟨projectId, some other⟩) one two
      (Twins store t secret (["Info.plist".toList] ++ used)) := by
  have hsteady := Duty.steady_propertyList store ⟨projectId, some token⟩
  have hmore := htwins.mono (List.subset_append_right ["Info.plist".toList] used)
  obtain ⟨base, news, news', hsplit, rfl, rfl⟩ := htwins
  have hplace := hsteady.place_moved hsplit.unlinked hsplit.moved
  have hplace' := hsteady.place_moved hsplit.unlinked hsplit.moved'
  refine Work.alike_caught_ask_bind _ (hplace.trans hplace'.symm) hmore fun answer hanswer => ?_
  rcases answer with hindrance | key
  · exact (alike_pure _ hmore).after_tell _
  have hkey : Location.ofPropertyList store base = .ok key := hplace.symm.trans hanswer
  have hread := hsteady.read_moved hsplit.unlinked hsplit.moved hkey hapart
  have hread' := hsteady.read_moved hsplit.unlinked hsplit.moved' hkey hapart
  refine Project.alike_resource hmore .propertyList (hread.trans hread'.symm) fun current hcurrent => ?_
  -- The file is the one that the project had from the start.
  have hcurrent : store.read base key = .ok current := hread.symm.trans hcurrent
  have hlinkless := hsplit.unlinked.linkless
  have hfound : Location.ofPropertyList store t = .ok key :=
    (Location.ofPropertyList_extends h hlinkless hsplit.grown).symm.trans hkey
  have hpoints := Location.points_ofPropertyList h hfound
  have hheld : store.read t key = .ok current := by
    rw [← hcurrent, hpoints.read_extends h.linkless hlinkless hsplit.grown (by decide)]
  refine (updatedProperties_alike htoken hother fun document hdocument new hmem => ⟨?_, ?_⟩).imp_right ?_
  · refine Bool.eq_false_iff.2 fun hstored => (hnew new hmem).fresh .ios ?_
    exact ⟨key, current, document, hfound, hheld, hdocument, hstored⟩
  · exact (hnew new hmem).room key current document hfound hheld hdocument
  rintro ⟨updated, updated', hfirst, hsecond, hne, hne'⟩
  refine ⟨updated, updated', hfirst, hsecond, hne, hne', fun _ => ?_⟩
  exact hsplit.write hsteady hkey hcurrent fun _ q held hfinds => hsecret key q held hfound
    (hpoints.finds_extends h.linkless hlinkless hsplit.grown (by decide) hfinds)

open Work in
/-- The services for Android. -/
theorem alike_android (hsecret : secret (pathAt store.root Location.stringTableNames))
    (report : RunReport) :
    Alike ((Project.mk store dryRun).servePlatform ⟨projectId, some token⟩ .android report)
      ((Project.mk store dryRun).servePlatform ⟨projectId, some other⟩ .android report) t t
      (Twins store t secret (Platform.android.entryNames ++ ["strings.xml".toList])) := by
  refine (alike_stringTable htoken hother hnew h hsecret).bind
    (fun _ _ htwins => htwins.mono (List.subset_append_right _ _)) fun resource one two htwins => ?_
  exact (alike_entry .android htwins (by decide)).bind (fun _ _ hR => hR)
    fun entry _ _ hR => alike_pure _ hR

open Work in
/-- The services for iOS. -/
theorem alike_ios {used : List Text} {one two : Tree} (htwins : Twins store t secret used one two)
    (hlist : EndApart used ["Info.plist".toList]) (hentry : EndApart used Platform.ios.entryNames)
    (hsecret : ∀ key q held, Location.ofPropertyList store t = .ok key →
      store.Finds t key q held → secret q) (report : RunReport) :
    Alike ((Project.mk store dryRun).servePlatform ⟨projectId, some token⟩ .ios report)
      ((Project.mk store dryRun).servePlatform ⟨projectId, some other⟩ .ios report) one two
      (Twins store t secret (Platform.ios.entryNames ++ (["Info.plist".toList] ++ used))) := by
  refine (alike_propertyList htoken hother hnew h htwins hlist hsecret).bind
    (fun _ _ htwins => htwins.mono (List.subset_append_right _ _)) fun resource one two htwins => ?_
  have hapart : EndApart ["Info.plist".toList] Platform.ios.entryNames := by decide
  exact (alike_entry .ios htwins (hapart.append hentry)).bind (fun _ _ hR => hR)
    fun entry _ _ hR => alike_pure _ hR

end Tokens

/-! ## Runs -/

/-- The file of a resource: the table of strings, or the property list that is found. -/
def IsResourceFile (store : Store) (t : Tree) (p : Path) : Prop :=
  p = pathAt store.root Location.stringTableNames ∨
    ∃ key held, Location.ofPropertyList store t = .ok key ∧ store.Finds t key p held

/-- Twins that differ in the files of resources at most. -/
def AreTwins (store : Store) (t one two : Tree) : Prop :=
  ∃ used, Twins store t (IsResourceFile store t) used one two

section Runs

section Platforms

open Work

variable {projectId : Option String} {token other : String} (htoken : IsToken token)
  (hother : IsToken other) {store : Store} {t : Tree}
  (hnew : ∀ new ∈ [token, other], IsNew store t projectId new) (h : Store.Unlinked t store.root)
  (dryRun : Bool) (config : PatchSettings)

include htoken hother hnew h

/-- What is left to do for iOS. -/
theorem alike_ios_enabled {used : List Text} {one two : Tree}
    (htwins : Twins store t (IsResourceFile store t) used one two)
    (hlist : EndApart used ["Info.plist".toList]) (hentry : EndApart used Platform.ios.entryNames)
    (report : RunReport) :
    Alike ((if config.iosEnabled then [Platform.ios] else []).foldlM (fun report platform =>
        (Project.mk store dryRun).servePlatform ⟨projectId, some token⟩ platform report) report)
      ((if config.iosEnabled then [Platform.ios] else []).foldlM (fun report platform =>
        (Project.mk store dryRun).servePlatform ⟨projectId, some other⟩ platform report) report)
      one two (AreTwins store t) := by
  cases config.iosEnabled with
  | false => exact alike_pure report ⟨used, htwins⟩
  | true =>
      have hsecret (key : String) (q : Path) (held : Contents)
          (hkey : Location.ofPropertyList store t = .ok key) (hfinds : store.Finds t key q held) :
          IsResourceFile store t q := .inr ⟨key, held, hkey, hfinds⟩
      exact (alike_ios htoken hother hnew h htwins hlist hentry hsecret report).bind
        (fun _ _ hR => ⟨_, hR⟩) fun report _ _ hR => alike_pure report ⟨_, hR⟩

/-- Two runs over a project with different new tokens. -/
theorem alike_servePlatforms :
    Alike ((Project.mk store dryRun).servePlatforms ⟨projectId, some token⟩ config)
      ((Project.mk store dryRun).servePlatforms ⟨projectId, some other⟩ config) t t
      (AreTwins store t) := by
  unfold Project.servePlatforms PatchSettings.platforms
  simp only [List.foldlM_append]
  refine Alike.after_tell (Alike.bind (R := AreTwins store t) ?_ (fun _ _ hR => hR)
    fun report _ _ hR => (alike_pure report hR).after_tell _) _
  have hios {used : List Text} {one two : Tree} :=
    @alike_ios_enabled _ _ _ htoken hother _ _ hnew h dryRun config used one two
  cases config.androidEnabled with
  | false =>
      have hstart : Twins store t (IsResourceFile store t) [] t t :=
        twins_same h h.linkless (.refl _ _ t)
      exact hios hstart (by decide) (by decide) .initial
  | true =>
      simp only [if_true, List.foldlM_cons, List.foldlM_nil, bind_pure]
      exact (alike_android htoken hother hnew h (.inl rfl) .initial).bind (fun _ _ hR => ⟨_, hR⟩)
        fun report one two htwins => hios htwins (by decide) (by decide) report

end Platforms

theorem isNew_emptyProject (projectId : Option String) (token : String) :
    IsNew ⟨⟨["project".toList]⟩⟩ emptyProject projectId token := by
  have hread (key : String) (current : Contents) :
      Store.read ⟨⟨["project".toList]⟩⟩ emptyProject key ≠ .ok current := by
    intro hread
    obtain ⟨q, hfinds⟩ := Store.exists_finds_of_read hread
    have hentry := Tree.fileAt_eq_some.1 hfinds.fileAt
    unfold Tree.entry? emptyProject at hentry
    split at hentry
    · cases hentry
    · rw [List.lookup_cons] at hentry
      split at hentry <;> cases hentry
  constructor
  case fresh =>
    rintro (_ | _)
    · rintro ⟨current, root, hcurrent, hroot, hfound⟩
      obtain rfl := Except.ok.inj (textOrNothing_emptyProject.symm.trans hcurrent)
      obtain rfl : StringTable.emptyRoot = root := Except.ok.inj hroot
      cases hfound
    · rintro ⟨key, current, document, -, hcurrent, -⟩
      exact hread key current hcurrent
  case room =>
    intro key current document _ hcurrent
    exact absurd hcurrent (hread key current)

end Runs

end BundleHook
