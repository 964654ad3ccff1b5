import BundleHook.Proofs.Service.Rest

/-!
# A second run

What a run has done it leaves alone the next time: it comes to an end again, changes nothing, and
reports on the same files. It calls them unchanged where it has patched them before, with the one
exception of a table of strings that it has written and cannot read again.

* `Duty.exists_rests_stringTable` — the table of strings, done again;
* `Project.performAll_again` — the duties of a run, done again;
* `run_again_iff` — the second run.
-/

namespace BundleHook

open Glob (pathAt)
open Markup (IsLegal isForbidden isSpace)

/-! ## The table of strings -/

namespace Store

variable {store : Store} {t after : Tree} {news : News} {key : String}

theorem Finds.textOrNothing {q : Path} {held : Contents} (h : store.Finds t key q held) :
    store.textOrNothing t key = (Utf8.decode held).mapError .notText := by
  unfold Store.textOrNothing
  rw [h.has]
  exact h.readAsText

theorem ofProject_overwrite (hnews : t.HasFilesFor news) (root : Path) :
    ofProject (t.overwrite news) root = ofProject t root := by
  unfold ofProject
  rw [Tree.resolve_overwrite hnews]

theorem ofProject_extends {fresh : List Text} (hextends : Tree.Extends store.root fresh t after)
    (hafter : after.Linkless store.root) {root : Path} (hstore : ofProject t root = .ok store) :
    ofProject after root = .ok store := by
  unfold ofProject at hstore ⊢
  rcases hresolve : t.resolve root with path | q
  · rw [hresolve] at hstore
    cases hstore
  · rw [hresolve] at hstore
    obtain rfl := Except.ok.inj hstore
    rw [hextends.resolve_of_look hresolve hafter.lookRoot]

section Strings

variable (h : t.Linkless store.root)

include h

theorem pathOf_stringTable :
    store.pathOf t Location.stringTableKey = .ok (pathAt store.root Location.stringTableNames) := by
  rw [Location.stringTableKey_eq]
  exact pathOf_keyOf Location.spells_stringTableNames (List.cons_ne_nil _ _) h

theorem short_of_textOrNothing {current : Text}
    (htext : store.textOrNothing t Location.stringTableKey = .ok current) :
    Tree.octetCount (pathAt store.root Location.stringTableNames).text < Tree.pathLimit := by
  by_contra hlong
  have hlook : t.look (pathAt store.root Location.stringTableNames) = .error .longName := by
    rw [Tree.look, if_pos (Nat.le_of_not_lt hlong)]
  unfold textOrNothing at htext
  rw [has_of_pathOf (pathOf_stringTable h), hlook] at htext
  cases htext

/-- Files of other names are not the table of strings. -/
theorem untouched_stringTable {names : List Text} (hmoved : Moved store names t t news)
    (hapart : EndApart names ["strings.xml".toList]) :
    store.Untouched t news Location.stringTableKey := by
  rintro q held ⟨p, hpath, hlook⟩
  obtain rfl := Except.ok.inj ((pathOf_stringTable h).symm.trans hpath)
  have hsteps (name : Text) (hname : name ∈ Location.stringTableNames) : Path.IsStep name :=
    (Location.spells_stringTableNames.isPlain name hname).isStep
  obtain rfl : q = pathAt store.root Location.stringTableNames := (h.found_of_look hsteps hlook).1
  by_contra hnews
  obtain ⟨name, hname, hends⟩ := hmoved.named _ hnews
  have hlast : (pathAt store.root Location.stringTableNames).name = "strings.xml".toList := by
    simp [Path.name, pathAt, Location.stringTableNames]
  rw [hlast] at hends
  exact hapart.not_both hname (List.mem_singleton_self _) hends (List.suffix_refl _)

end Strings

/-- What a project without links is after its table of strings has been written. -/
theorem Unlinked.write_stringTable (h : Unlinked t store.root) {contents : Contents}
    (hwrite : store.write t Location.stringTableKey contents = (none, after)) :
    Unlinked after store.root ∧
      (∀ root, ofProject t root = .ok store → ofProject after root = .ok store) ∧
      store.textOrNothing after Location.stringTableKey =
        (Utf8.decode contents).mapError .notText := by
  have hplain := Location.spells_stringTableNames.isPlain
  have hwritten := write_of_linkless Location.spells_stringTableNames (List.cons_ne_nil _ _)
    h.linkless
  rw [← Location.stringTableKey_eq] at hwritten
  rcases hwritten with ⟨refusal, made, -, -, hrefused⟩ |
    ⟨hshort, between, held, hlinkless, hextends, hfile, hwritten⟩
  · rw [hrefused] at hwrite
    cases hwrite
  obtain ⟨-, rfl⟩ := Prod.mk.inj ((hwritten contents).symm.trans hwrite)
  have hnews := (Tree.hasFilesFor_nothing between).add hfile contents
  have hfinds : store.Finds between Location.stringTableKey _ held :=
    ⟨_, pathOf_stringTable hlinkless,
      hlinkless.look_of_entry (Tree.fileAt_eq_some.1 hfile) hshort⟩
  have htext := (hfinds.overwrite hnews).textOrNothing
  rw [News.add, if_pos rfl, Option.getD_some] at htext
  refine ⟨(h.of_extends hlinkless hextends hplain).overwrite hnews, fun root hstore => ?_, htext⟩
  rw [ofProject_overwrite hnews]
  exact ofProject_extends hextends hlinkless hstore

end Store

namespace Duty

variable {store : Store} {credentials : Credentials} {t after : Tree} {result : FileResult}

/-- Strings that are written are unchanged the next time exactly when they can be read again. -/
theorem restsIn_written_strings (hitems : StringTable.AreStorable credentials.items)
    {current updated : Text}
    (hcurrent : store.textOrNothing t Location.stringTableKey = .ok current)
    (hupsert : StringTable.upsert current credentials.items = .ok updated) (hnew : updated ≠ current)
    (hwritten : store.textOrNothing after Location.stringTableKey = .ok updated) :
    (ofResource store credentials .android).RestsIn store after fun state =>
      state = .unchanged ↔
        Platform.android.FindsSpelled store t Location.stringTableKey := by
  obtain ⟨root, hroot, -⟩ := bind_eq_ok.1 hupsert
  have hfinds : Platform.android.FindsSpelled store t Location.stringTableKey ↔ root.IsSpelled := by
    simp only [Platform.FindsSpelled, hcurrent, Except.ok.injEq, exists_and_left, exists_eq_left',
      hroot]
  have hplace : (ofResource store credentials .android).place after =
      .ok Location.stringTableKey := rfl
  have hrevise : (ofResource store credentials .android).revise after Location.stringTableKey =
      reviseResource .stringTable Location.stringTableKey (.ok updated)
        (Project.updatedStrings · credentials) Utf8.encode := by
    show reviseStrings store credentials after Location.stringTableKey = _
    unfold reviseStrings
    rw [hwritten]
  by_cases hspelled : root.IsSpelled
  · obtain ⟨-, -, -, hagain⟩ := (StringTable.upsert_settles_iff hroot hupsert hitems).2 (.inr hspelled)
    exact (restsIn_of_reviseResource rfl hplace hrevise (updatedStrings_eq_ok.2 hagain)).mono
      fun state hstate => iff_of_true hstate (hfinds.2 hspelled)
  · rcases hagain : Project.updatedStrings updated credentials with hindrance | again
    · have hfile := isOfFile_of_updatedStrings hagain
      have hhindered : (ofResource store credentials .android).revise after
          Location.stringTableKey = .error hindrance := by
        rw [hrevise]
        unfold reviseResource
        simp only [Except.mapError, bind, Except.bind, hagain]
      refine ⟨_, rests_of_hindered hplace hhindered hfile, fun note hnote => ?_⟩
      rw [hnote.unique (isOf_fail_path _ _ _)]
      exact iff_of_false (by simp) fun hfound => hspelled (hfinds.1 hfound)
    · have hread := (StringTable.upsert_again_iff hroot hupsert).1
        ⟨again, updatedStrings_eq_ok.1 hagain⟩
      exact absurd (hread.resolve_left hnew).2 hspelled

theorem exists_rests_stringTable (hitems : StringTable.AreStorable credentials.items)
    (h : Store.Unlinked t store.root)
    (hperform : (Project.mk store false).perform (ofResource store credentials .android) t =
      (.ok result, after)) :
    Store.Unlinked after store.root ∧
      (∀ root, Store.ofProject t root = .ok store → Store.ofProject after root = .ok store) ∧
      ∃ note : Note, note.IsOf (ofResource store credentials .android) result ∧
        note.IsHonest (ofResource store credentials .android) t ∧
        (ofResource store credentials .android).RestsIn store after fun state =>
          state = note.file.status.again ↔ note.file.FoundSpelled store t := by
  have hduty : ofResource store credentials .android ∈ all store credentials ⟨true, false, false⟩ :=
    List.mem_cons_self
  obtain ⟨note, hnote, hhonest, hturn⟩ := exists_turn hduty hperform
  have hcalm (hrests : (ofResource store credentials .android).Rests store t result)
      (calm : note.file.status ≠ .patched) (unwritten : note.file.written = false) :
      (ofResource store credentials .android).RestsIn store t fun state =>
        state = note.file.status.again ↔ note.file.FoundSpelled store t := by
    refine (restsIn_of_calm hnote hrests calm).mono fun state hstate => iff_of_true hstate ?_
    intro hwritten
    rw [unwritten] at hwritten
    cases hwritten
  cases hturn with
  | kept nothing calm unwritten =>
      refine ⟨h, fun _ => id, note, hnote, hhonest, hcalm ⟨hperform, ?_⟩ calm unwritten⟩
      exact fun key contents answer hplace hrevise =>
        absurd hrevise (nothing key contents answer hplace)
  | @refused key contents answer fault _ place revises writes calm unwritten =>
      -- The way to the table is not too long, as it has been looked at.
      obtain rfl := Except.ok.inj place
      obtain ⟨current, -, hcurrent, -⟩ := reviseStrings_eq_some revises
      have hshort := Store.short_of_textOrNothing h.linkless hcurrent
      obtain rfl : after = t := by
        rw [Location.stringTableKey_eq] at writes
        exact Store.unchanged_of_refused Location.spells_stringTableNames (List.cons_ne_nil _ _)
          h.linkless hshort writes
      refine ⟨h, fun _ => id, note, hnote, hhonest, hcalm ⟨hperform, ?_⟩ calm unwritten⟩
      intro key' contents' answer' hplace hrevise
      obtain rfl := Except.ok.inj hplace
      have hsame := Except.ok.inj (revises.symm.trans hrevise)
      obtain ⟨hcontents, -⟩ := Revision.mk.inj hsame
      obtain rfl := Option.some.inj hcontents
      exact ⟨fault, writes⟩
  | @wrote key contents answer _ place revises writes isOf =>
      obtain rfl := Except.ok.inj place
      obtain ⟨current, updated, hcurrent, hupdated, hrevision⟩ := reviseResource_eq_ok revises
      obtain ⟨hcontents, rfl⟩ := Revision.mk.inj hrevision
      obtain ⟨hnew, hsome⟩ := Option.ite_none_right_eq_some.1 hcontents.symm
      obtain rfl := Option.some.inj hsome
      obtain ⟨hunlinked, hproject, htext⟩ := h.write_stringTable writes
      rw [Utf8.decode_encode] at htext
      obtain rfl := isOf.unique (isOn_resource rfl _ _).isOf
      refine ⟨hunlinked, hproject, _, hnote, hhonest, (restsIn_written_strings hitems hcurrent
        (updatedStrings_eq_ok.1 hupdated) hnew htext).mono fun state hstate => ?_⟩
      exact hstate.trans ⟨fun hfound _ _ => hfound, fun hfound => hfound rfl rfl⟩

/-- Later duties do not touch the table of strings. -/
theorem RestsIn.stringTable_moved {expected : FileState → Prop}
    (hrests : (ofResource store credentials .android).RestsIn store t expected)
    (h : t.Linkless store.root) {names : List Text} {news : News}
    (hmoved : Moved store names t t news) (hapart : EndApart names ["strings.xml".toList]) :
    (ofResource store credentials .android).RestsIn store (t.overwrite news) expected := by
  refine hrests.overwrite hmoved.held rfl fun key hkey => ?_
  obtain rfl := Except.ok.inj hkey
  have htext := Duty.textOrNothing_overwrite hmoved.held
    (Store.untouched_stringTable h hmoved hapart)
  show reviseStrings _ _ _ _ = reviseStrings _ _ _ _
  unfold reviseStrings
  rw [htext]

/-- Nor do they touch one another's files. -/
theorem RestsIn.steady_moved {duty : Duty} {expected : FileState → Prop}
    (hrests : duty.RestsIn store t expected) (hsteady : duty.Steady store)
    (h : Store.Unlinked t store.root) {names : List Text} {news : News}
    (hmoved : Moved store names t t news) (hapart : EndApart names duty.endings) :
    duty.RestsIn store (t.overwrite news) expected :=
  hrests.overwrite hmoved.held (hsteady.place_overwrite hmoved.held h.linkless.unique)
    fun _ hplace => hsteady.revise_moved h hmoved hplace hapart

/-! ## Reports on the same file -/

/-- At rest, the duty reports on the same file as before. -/
structure Repeats (store : Store) (duty : Duty) (t : Tree) (file again : FileReport) : Prop where
  rests : ∃ result diagnostics, duty.Rests store t result ∧
    Note.IsOf ⟨again, diagnostics⟩ duty result
  platform : again.platform = file.platform
  path : again.path = file.path

theorem exists_repeats {config : PatchSettings} {duty : Duty}
    (hduty : duty ∈ all store credentials config) {note : Note} (hhonest : note.IsHonest duty t)
    (hplace : duty.place t = duty.place after) {expected : FileState → Prop}
    (hrests : duty.RestsIn store after expected) :
    ∃ again, duty.Repeats store after note.file again ∧ expected again.status := by
  obtain ⟨result, hrests, hexpected⟩ := hrests
  have hperformance := Project.performance_of_perform hrests.performs
  obtain ⟨again, hagain, hhonest'⟩ :=
    @exists_honest_note ⟨store, false⟩ _ _ _ hduty _ _ _ hperformance
  refine ⟨again.file, ⟨⟨result, again.diagnostics, hrests, hagain⟩, ?_, ?_⟩, hexpected again hagain⟩
  · rw [hhonest.about.1, hhonest'.about.1]
  · rcases hhonest.about.2 with ⟨hfound, -⟩ | ⟨⟨failure, hlost⟩, hname, -⟩ <;>
      rcases (hhonest'.about.of_place_eq hplace).2 with ⟨hfound', -⟩ | ⟨⟨failure', hlost'⟩, hname', -⟩
    · exact Except.ok.inj (hfound'.symm.trans hfound)
    · rw [hfound] at hlost'
      cases hlost'
    · rw [hlost] at hfound'
      cases hfound'
    · rw [hname, hname']

end Duty

/-! ## Duties one after the other -/

/-- New contents for files, and then again. -/
theorem Moved.over {store : Store} {t : Tree} {names more : List Text} {news later : News}
    (h : Moved store names t t news)
    (hmore : Moved store more (t.overwrite news) (t.overwrite news) later) :
    Moved store (names ++ more) t t fun p => (later p).or (news p) where
  linkless := h.linkless
  grown := h.grown
  short := .inl rfl
  held p hp := by
    rcases hlater : later p with _ | contents
    · simp only [hlater, Option.none_or] at hp
      exact h.held p hp
    · have hfile := hmore.held p (by simp [hlater])
      rw [Tree.fileAt_overwrite h.held] at hfile
      rcases hnews : news p with _ | held
      · rwa [hnews, Option.none_or] at hfile
      · exact h.held p (by simp [hnews])
  named p hp := by
    rcases hlater : later p with _ | contents
    · simp only [hlater, Option.none_or] at hp
      obtain ⟨name, hname, hends⟩ := h.named p hp
      exact ⟨name, List.mem_append_left _ hname, hends⟩
    · obtain ⟨name, hname, hends⟩ := hmore.named p (by simp [hlater])
      exact ⟨name, List.mem_append_right _ hname, hends⟩

namespace Project

variable {store : Store} {credentials : Credentials} {config : PatchSettings} {t after : Tree}
  {report final : RunReport}

/-- Duties at rest report on their files, and leave everything as it is. -/
theorem performAll_of_repeats {duties : List Duty} {pairs : List (FileReport × FileReport)}
    (h : List.Forall₂ (fun duty pair => Duty.Repeats store duty t pair.1 pair.2) duties pairs)
    (report : RunReport) :
    ∃ final, (Project.mk store false).performAll duties t report = (.ok final, t) ∧
      final.files = report.files ++ pairs.map Prod.snd := by
  induction h generalizing report with
  | nil => exact ⟨report, rfl, by simp⟩
  | @cons duty pair duties pairs hfirst _ ih =>
      obtain ⟨result, diagnostics, hrests, hnote⟩ := hfirst.rests
      obtain ⟨final, hdone, hfiles⟩ := ih (report.add duty.platform duty.name result)
      refine ⟨final, ?_, ?_⟩
      · unfold performAll
        rw [hrests.performs]
        exact hdone
      · rw [hfiles, hnote report]
        simp [RunReport.withNotes]

/-- Steady duties have moved the project by their own files, and rest from then on. -/
theorem performAll_again (hlegal : ∀ item ∈ credentials.items, IsLegal item.2 ∧ '\r' ∉ item.2)
    {duties : List Duty} (hduties : ∀ duty ∈ duties, duty ∈ Duty.later store credentials config)
    (hapart : duties.Pairwise fun duty other => EndApart duty.endings other.endings)
    (h : Store.Unlinked t store.root)
    (hdone : (Project.mk store false).performAll duties t report = (.ok final, after)) :
    (∃ news, after = t.overwrite news ∧ Moved store (duties.flatMap Duty.endings) t t news) ∧
      ∃ pairs : List (FileReport × FileReport),
        final.files = report.files ++ pairs.map Prod.fst ∧
        List.Forall₂ (fun duty pair => Duty.Repeats store duty after pair.1 pair.2 ∧
          ∀ base, pair.2.status = pair.1.status.again ↔ pair.1.FoundSpelled store base)
          duties pairs := by
  induction duties generalizing t report with
  | nil =>
      obtain ⟨hreport, rfl⟩ := Prod.mk.inj hdone
      obtain rfl := Except.ok.inj hreport
      exact ⟨⟨.nothing, (Tree.overwrite_nothing t).symm, .nothing h.linkless _⟩, [], by simp, .nil⟩
  | cons duty duties ih =>
      obtain ⟨hduty, hothers⟩ := List.forall_mem_cons.1 hduties
      obtain ⟨hfirst, hrest⟩ := List.pairwise_cons.1 hapart
      unfold performAll at hdone
      rcases hperform : (Project.mk store false).perform duty t with ⟨hindrance | result, made⟩
      · rw [hperform] at hdone
        cases hdone
      rw [hperform] at hdone
      obtain ⟨⟨news, rfl, hmoved⟩, note, hnote, hhonest, hrests, hfound⟩ :=
        Duty.exists_rests_of_steady hlegal hduty h hperform
      have hunlinked := h.overwrite hmoved.held
      obtain ⟨⟨later, rfl, hlater⟩, pairs, hfiles, hpairs⟩ := ih hothers hrest hunlinked hdone
      have hsteady := Duty.steady_of_mem_later hduty
      have hother : EndApart (duties.flatMap Duty.endings) duty.endings := by
        intro name hname last hlast
        obtain ⟨other, hmem, hname⟩ := List.mem_flatMap.1 hname
        exact (hfirst other hmem last hlast name hname).symm
      -- The duty finds its file where it was, before and after the later ones.
      have hplace : duty.place t = duty.place ((t.overwrite news).overwrite later) := by
        rw [hsteady.place_overwrite hlater.held hunlinked.linkless.unique,
          hsteady.place_overwrite hmoved.held h.linkless.unique]
      obtain ⟨again, hrepeats, hstatus⟩ := Duty.exists_repeats (Duty.mem_all_of_mem_later hduty)
        hhonest hplace (hrests.steady_moved hsteady hunlinked hlater hother)
      refine ⟨⟨_, Tree.overwrite_overwrite t news later, hmoved.over hlater⟩,
        (note.file, again) :: pairs, ?_, .cons ⟨hrepeats, fun base => ?_⟩ hpairs⟩
      · rw [hfiles, hnote report]
        simp [RunReport.withNotes]
      · exact iff_of_true hstatus (hfound base)

/-- All duties of a run. -/
theorem performAll_all_again (hitems : StringTable.AreStorable credentials.items)
    (h : Store.Unlinked t store.root)
    (hdone : (Project.mk store false).performAll (Duty.all store credentials config) t .initial =
      (.ok final, after)) :
    (∀ root, Store.ofProject t root = .ok store → Store.ofProject after root = .ok store) ∧
      ∃ pairs : List (FileReport × FileReport), final.files = pairs.map Prod.fst ∧
        List.Forall₂ (fun duty pair => Duty.Repeats store duty after pair.1 pair.2 ∧
          (pair.2.status = pair.1.status.again ↔ pair.1.FoundSpelled store t))
          (Duty.all store credentials config) pairs := by
  have hlegal (item : Text × Text) (hitem : item ∈ credentials.items) :
      IsLegal item.2 ∧ '\r' ∉ item.2 :=
    ⟨(hitems.legal item hitem).2, (hitems.values item hitem).2⟩
  have hapart := Duty.endApart_all store credentials config
  rw [Duty.all_eq_later] at hapart hdone ⊢
  rcases henabled : config.androidEnabled <;> rw [henabled] at hapart hdone
  case false =>
      obtain ⟨⟨news, rfl, hmoved⟩, pairs, hfiles, hpairs⟩ :=
        performAll_again hlegal (fun _ hduty => hduty) hapart h hdone
      refine ⟨fun root hstore => ?_, pairs, by simpa [RunReport.initial] using hfiles,
        hpairs.imp fun _ _ hpair => ⟨hpair.1, hpair.2 t⟩⟩
      rw [Store.ofProject_overwrite hmoved.held, hstore]
  case true =>
      obtain ⟨hfirst, hapart⟩ := List.pairwise_cons.1 hapart
      simp only [if_true, List.cons_append, List.nil_append, performAll] at hdone ⊢
      rcases hperform : (Project.mk store false).perform
        (Duty.ofResource store credentials .android) t with ⟨hindrance | result, made⟩
      · rw [hperform] at hdone
        cases hdone
      rw [hperform] at hdone
      obtain ⟨hunlinked, hproject, note, hnote, hhonest, hrests⟩ :=
        Duty.exists_rests_stringTable hitems h hperform
      obtain ⟨⟨news, rfl, hmoved⟩, pairs, hfiles, hpairs⟩ :=
        performAll_again hlegal (fun _ hduty => hduty) hapart hunlinked hdone
      have hother : EndApart ((Duty.later store credentials config).flatMap Duty.endings)
          ["strings.xml".toList] := by
        intro name hname last hlast
        obtain ⟨other, hmem, hname⟩ := List.mem_flatMap.1 hname
        exact (hfirst other hmem last hlast name hname).symm
      have hduty : Duty.ofResource store credentials .android ∈
          Duty.all store credentials ⟨true, false, false⟩ := List.mem_cons_self
      have hplace : (Duty.ofResource store credentials .android).place t =
          (Duty.ofResource store credentials .android).place (made.overwrite news) := rfl
      obtain ⟨again, hrepeats, hstatus⟩ := Duty.exists_repeats hduty hhonest hplace
        (hrests.stringTable_moved hunlinked.linkless hmoved hother)
      refine ⟨fun root hstore => ?_, (note.file, again) :: pairs, ?_, .cons ⟨hrepeats, hstatus⟩
        (hpairs.imp fun _ _ hpair => ⟨hpair.1, hpair.2 t⟩)⟩
      · rw [Store.ofProject_overwrite hmoved.held, hproject root hstore]
      · rw [hfiles]
        have hinitial := hnote .initial
        simp only [Duty.ofResource] at hinitial ⊢
        rw [hinitial]
        simp [RunReport.withNotes, RunReport.initial]

end Project

/-! ## Runs -/

section Runs

variable {root : Path} {credentials : Credentials} {config : PatchSettings}

/-- Legal credentials without carriage returns, with a project that is not blank, can be stored. -/
theorem Credentials.areStorable (hgiven : credentials.areGiven = true)
    (hgood : credentials.failure? = none)
    (hproject : ∀ id, credentials.projectId = some id → Text.isBlankText id.toList = false)
    (hlegal : ∀ item ∈ credentials.items, IsLegal item.2 ∧ '\r' ∉ item.2) :
    StringTable.AreStorable credentials.items where
  keys := credentials.hasPlainKeys_items.nodup
  legal item hitem := ⟨credentials.isLegal_of_mem_items hitem, (hlegal item hitem).1⟩
  values item hitem := by
    refine ⟨?_, (hlegal item hitem).2⟩
    obtain ⟨_ | id, appToken⟩ := credentials
    · cases hgiven
    rcases List.mem_cons.1 hitem with rfl | hitem
    · exact hproject id rfl
    obtain rfl := List.mem_singleton.1 hitem
    rcases appToken with _ | token
    · simp [areGiven, isGiven] at hgiven
    have hne : token.isEmpty = false := by
      simpa [areGiven, isGiven] using (Bool.and_eq_true_iff.1 hgiven).2
    have hbegins : tokenStart.toList.isPrefixOf token.toList = true := by
      by_contra hbad
      simp [failure?, hne, hbad] at hgood
    obtain ⟨rest, hrest⟩ := List.isPrefixOf_iff_prefix.1 hbegins
    show Text.isBlankText token.toList = false
    rw [← hrest]
    rfl

/-- A run that comes to an end does so again, changes nothing, and reports on the same files in the
same order. It reports the files that were patched as unchanged, and all others as before, exactly
when the strings that the first run has written, if any, were named as names are spelled. -/
theorem run_again_iff (root : Path) (credentials : Credentials) (config : PatchSettings)
    (world : World) (hreal : config.dryRun = false) (hgiven : credentials.areGiven = true)
    (hproject : ∀ id, credentials.projectId = some id → Text.isBlankText id.toList = false)
    (hlegal : ∀ item ∈ credentials.items, IsLegal item.2 ∧ '\r' ∉ item.2) {store : Store}
    (hstore : Store.ofProject world.tree root = .ok store)
    (hunlinked : Store.Unlinked world.tree store.root) {report : RunReport}
    (hreport : ((runOver root credentials config).run world).1 = .ok report) :
    let after := ((runOver root credentials config).run world).2.tree
    ∀ told, let second := (runOver root credentials config).run ⟨after, told⟩
      second.2.tree = after ∧ ∃ again, second.1 = .ok again ∧
        again.files.map (fun file => (file.platform, file.path)) =
          report.files.map (fun file => (file.platform, file.path)) ∧
        (again.files.map FileReport.status = report.files.map (fun file => file.status.again) ↔
          ∀ file ∈ report.files, file.FoundSpelled store world.tree) := by
  intro after told
  obtain ⟨t, events⟩ := world
  have hgood : credentials.failure? = none := by
    by_contra hbad
    rw [((run_with_malformed_token hgiven hbad).run events).1] at hreport
    cases hreport
  have hends := ends_runOver config hgiven hgood hstore
  rw [hreal] at hends
  have hdone : (Project.mk store false).performAll (Duty.all store credentials config) t .initial =
      (.ok report, after) :=
    Prod.ext ((hends.run events).1.symm.trans hreport) (hends.run events).2.symm
  obtain ⟨hproject', pairs, hfiles, hpairs⟩ := Project.performAll_all_again
    (Credentials.areStorable hgiven hgood hproject hlegal) hunlinked hdone
  obtain ⟨again, hagain, hfiles'⟩ := Project.performAll_of_repeats
    (hpairs.imp fun _ _ hpair => hpair.1) .initial
  have hends' := ends_runOver config hgiven hgood (hproject' root hstore)
  rw [hreal, hagain] at hends'
  obtain ⟨hresult, htree⟩ := hends'.run told
  have hpair (pair : FileReport × FileReport) (hmem : pair ∈ pairs) :
      (pair.2.platform = pair.1.platform ∧ pair.2.path = pair.1.path) ∧
        (pair.2.status = pair.1.status.again ↔ pair.1.FoundSpelled store t) := by
    obtain ⟨duty, -, hrepeats, hstatus⟩ := exists_left_of_forall₂ hpairs hmem
    exact ⟨⟨hrepeats.platform, hrepeats.path⟩, hstatus⟩
  simp only [RunReport.initial, List.nil_append] at hfiles'
  refine ⟨htree, again, hresult, ?_, ?_⟩
  · rw [hfiles, hfiles', List.map_map, List.map_map]
    exact List.map_congr_left fun pair hmem => Prod.ext (hpair pair hmem).1.1 (hpair pair hmem).1.2
  · rw [hfiles, hfiles', List.map_map, List.map_map, List.map_inj_left, List.forall_mem_map]
    exact forall₂_congr fun pair hmem => (hpair pair hmem).2

/-- The strings that a project without files gets are unchanged in the next run. -/
theorem run_again_emptyProject :
    let root : Path := ⟨["project".toList]⟩
    let first := (runOver root someCredentials ⟨true, false, false⟩).run ⟨emptyProject, []⟩
    let second := (runOver root someCredentials ⟨true, false, false⟩).run ⟨first.2.tree, []⟩
    second.2.tree = first.2.tree ∧ ∃ report again, first.1 = .ok report ∧ second.1 = .ok again ∧
      report.files.map FileReport.status = [.patched, .missing] ∧
      again.files.map FileReport.status = [.unchanged, .missing] := by
  intro root first second
  have hstore : Store.ofProject emptyProject root = .ok ⟨root⟩ := by cbv
  have hgiven : someCredentials.areGiven = true := by decide
  have hends := ends_runOver ⟨true, false, false⟩ hgiven (by decide) hstore
  obtain ⟨report, hall, hfiles⟩ := performAll_emptyProject
  have hreport : first.1 = .ok report := (hends.run []).1.trans hall
  have hproject (id : String) (hid : someCredentials.projectId = some id) :
      Text.isBlankText id.toList = false := by
    obtain rfl := Option.some.inj hid
    decide
  have hlegal : ∀ item ∈ someCredentials.items, IsLegal item.2 ∧ '\r' ∉ item.2 := by
    simp [Credentials.items, someCredentials, IsLegal, isForbidden, isSpace]
  obtain ⟨htree, again, hagain, -, hstates⟩ := run_again_iff root someCredentials
    ⟨true, false, false⟩ ⟨emptyProject, []⟩ rfl hgiven hproject hlegal hstore
    (Store.unlinked_of_plain plain_emptyProject) hreport []
  rw [hfiles] at hstates
  refine ⟨htree, report, again, hreport, hagain, by rw [hfiles]; rfl, hstates.2 ?_⟩
  refine List.forall_mem_cons.2 ⟨fun _ _ => ?_, List.forall_mem_singleton.2 fun hwritten => ?_⟩
  · exact ⟨[], StringTable.emptyRoot, textOrNothing_emptyProject, rfl, by decide⟩
  · cases hwritten

/-! ### A table that is not read again -/

/-- The table with an attribute by default, and with the credentials. -/
def defaultedStrings : Text :=
  ("<resources xmlns:ns0=\"u\" ns0:1=\"x\">\n" ++
    "  <string name=\"StallionProjectId\">p</string>\n" ++
    "  <string name=\"StallionAppToken\">spb_t</string>\n</resources>\n").toList

theorem write_projectWithStrings (contents news : Contents) :
    Store.write ⟨⟨["project".toList]⟩⟩ (projectWithStrings contents) Location.stringTableKey news =
      (none, projectWithStrings news) := by
  have hunlinked := (Store.unlinked_of_plain plain_emptyProject).write_stringTable
    (write_emptyProject contents)
  rw [Store.write_of_pathOf (Store.pathOf_stringTable hunlinked.1.linkless)]
  cbv

private theorem perform_defaultedTable :
    (Project.mk ⟨⟨["project".toList]⟩⟩ false).perform
        (Duty.ofResource ⟨⟨["project".toList]⟩⟩ someCredentials .android)
        (projectWithStrings (Utf8.encode StringTable.defaultedTable)) =
      (.ok (Resource.stringTable.answer Location.stringTableKey ⟨true, true⟩),
        projectWithStrings (Utf8.encode defaultedStrings)) := by
  have htext := ((Store.unlinked_of_plain plain_emptyProject).write_stringTable
    (write_emptyProject (Utf8.encode StringTable.defaultedTable))).2.2
  rw [Utf8.decode_encode] at htext
  have hupsert : StringTable.upsert StringTable.defaultedTable someCredentials.items =
      .ok defaultedStrings := by decide +kernel
  have hnew : defaultedStrings ≠ StringTable.defaultedTable := by decide +kernel
  simp only [Project.perform, Duty.ofResource, Duty.reviseStrings, Duty.reviseResource, htext,
    Except.mapError, bind, Except.bind, Duty.updatedStrings_eq_ok.2 hupsert, pure, Except.pure,
    if_pos hnew, Project.settle, Project.carryOut, write_projectWithStrings]
  rfl

private theorem perform_defaultedStrings :
    ∃ message, (Project.mk ⟨⟨["project".toList]⟩⟩ false).perform
        (Duty.ofResource ⟨⟨["project".toList]⟩⟩ someCredentials .android)
        (projectWithStrings (Utf8.encode defaultedStrings)) =
      (.ok (.fail message (.path Location.stringTableKey)),
        projectWithStrings (Utf8.encode defaultedStrings)) := by
  have htext := ((Store.unlinked_of_plain plain_emptyProject).write_stringTable
    (write_emptyProject (Utf8.encode defaultedStrings))).2.2
  rw [Utf8.decode_encode] at htext
  have hrefused : (Project.updatedStrings defaultedStrings someCredentials).isOk = false := by
    decide +kernel
  rcases hupdated : Project.updatedStrings defaultedStrings someCredentials with hindrance | updated
  · have hfile := Duty.isOfFile_of_updatedStrings hupdated
    refine ⟨hindrance.report, ?_⟩
    simp only [Project.perform, Duty.ofResource, Duty.reviseStrings, Duty.reviseResource, htext,
      Except.mapError, bind, Except.bind, hupdated, Project.settle, Project.excused, hfile, if_true]
  · rw [hupdated] at hrefused
    cases hrefused

/-- The table is patched once, and not recognized from then on. -/
theorem run_again_defaultedTable :
    let run := runOver ⟨["project".toList]⟩ someCredentials ⟨true, false, false⟩
    let project := projectWithStrings (Utf8.encode StringTable.defaultedTable)
    let first := run.run ⟨project, []⟩
    let second := run.run ⟨first.2.tree, []⟩
    project.Plain ⟨["project".toList]⟩ ∧
      (∀ item ∈ someCredentials.items, IsLegal item.2 ∧ '\r' ∉ item.2) ∧
      ∃ report again, first.1 = .ok report ∧ second.1 = .ok again ∧
        report.files.map FileReport.status = [.patched, .missing] ∧
        again.files.map FileReport.status = [.unrecognized, .missing] := by
  intro run project first second
  have hstore (contents : Contents) :
      Store.ofProject (projectWithStrings contents) ⟨["project".toList]⟩ =
        .ok ⟨⟨["project".toList]⟩⟩ := by cbv
  have hplain (contents : Contents) : (projectWithStrings contents).Plain ⟨["project".toList]⟩ := by
    have hwrite := write_emptyProject contents
    rw [Location.stringTableKey_eq] at hwrite
    exact (Store.write_keyOf Location.spells_stringTableNames (List.cons_ne_nil _ _)
      plain_emptyProject hwrite).1
  obtain ⟨message, hrefused⟩ := perform_defaultedStrings
  obtain ⟨lost, hlost⟩ := perform_projectWithStrings (Utf8.encode defaultedStrings)
  have hgiven : someCredentials.areGiven = true := by decide
  have hgood : someCredentials.failure? = none := by decide
  have hfirst := ends_runOver ⟨true, false, false⟩ hgiven hgood
    (hstore (Utf8.encode StringTable.defaultedTable))
  have hsecond := ends_runOver ⟨true, false, false⟩ hgiven hgood
    (hstore (Utf8.encode defaultedStrings))
  have hduties : Duty.all ⟨⟨["project".toList]⟩⟩ someCredentials ⟨true, false, false⟩ =
      [Duty.ofResource _ someCredentials .android, Duty.ofEntry _ .android] := rfl
  simp only [hduties, Project.performAll, perform_defaultedTable, hrefused, hlost] at hfirst hsecond
  have htree : first.2.tree = projectWithStrings (Utf8.encode defaultedStrings) :=
    (hfirst.run []).2
  have hagain := (hsecond.run []).1
  rw [← htree] at hagain
  refine ⟨hplain _, ?_, _, _, (hfirst.run []).1, hagain, rfl, rfl⟩
  simp [Credentials.items, someCredentials, IsLegal, isForbidden, isSpace]

end Runs

end BundleHook
