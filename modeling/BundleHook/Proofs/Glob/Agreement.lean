import BundleHook.Proofs.Glob.Files
import BundleHook.Proofs.Tree.Extension

/-!
# Trees that answer a pattern alike

Two trees that answer the questions of a selection alike select the same files, or are hindered by
the same path. A tree some of whose files have new contents does so everywhere, and one with more
entries does so off the way to these.

* `select_of_agree` — the same answers make the same selection;
* `filesAlong_overwrite`, `filesAlong_extends`, `filesAlong_extends_chain` — the same files.
-/

namespace BundleHook.Glob

open Tree

/-- The trees answer alike on the names that are `within`, and a selection does not leave these. -/
structure Agree (within : List Text → Prop) (root : Path) (t after : Tree) : Prop where
  asks : ∀ names, within names → ∀ wanted, AsksKind wanted →
    asks after (pathAt root names) wanted = asks t (pathAt root names) wanted
  listed : ∀ names, within names →
    namesIn after (pathAt root names) = namesIn t (pathAt root names) ∧
      ∀ name ∈ namesIn t (pathAt root names), within (names ++ [name])
  below : ∀ names, within names →
    directoriesBelow after (pathAt root names) = directoriesBelow t (pathAt root names) ∧
      ∀ way ∈ directoriesBelow t (pathAt root names), within (names ++ way)
  spelled : ∀ names name, within names → Path.IsPlain name → within (names ++ [name])

/-- From the names on, the same is selected in both trees, and stays within. -/
def SelectsAlike (within : List Text → Prop) (root : Path) (t after : Tree) (steps : List Step)
    (names : List Text) : Prop :=
  select after root steps names = select t root steps names ∧
    ∀ found, select t root steps names = .ok found → ∀ out ∈ found, within out

section Selecting

variable {within : List Text → Prop} {root : Path} {t after : Tree}

theorem selectsAlike_nothing {steps : List Step} {names : List Text}
    (h : select t root steps names = .ok []) (hafter : select after root steps names = .ok []) :
    SelectsAlike within root t after steps names := by
  refine ⟨hafter.trans h.symm, fun found hfound => ?_⟩
  obtain rfl := Except.ok.inj (h.symm.trans hfound)
  exact List.forall_mem_nil _

theorem selectsAlike_stay {steps : List Step} {names : List Text} (hnames : within names)
    (hstay : ∀ t, select t root steps names = .ok [names]) :
    SelectsAlike within root t after steps names := by
  refine ⟨(hstay after).trans (hstay t).symm, fun found hfound => ?_⟩
  obtain rfl := Except.ok.inj ((hstay t).symm.trans hfound)
  exact List.forall_mem_singleton.2 hnames

variable (h : Agree within root t after) {others : List Step} {names : List Text}

include h

/-- A step to a name that is spelled out need only end within. -/
theorem selectsAlike_exactly {name : Text} (hfurther : within (names ++ [name]))
    (ih : SelectsAlike within root t after others (names ++ [name])) :
    SelectsAlike within root t after (.exactly name :: others) names := by
  have hwanted : AsksKind (if others.isEmpty then isThere else isDirectory) := by
    split
    · exact asksKind_isThere
    · exact asksKind_isDirectory
  have hasks := h.asks _ hfurther _ hwanted
  refine ⟨by simp only [select, hasks, ih.1], fun found hfound => ?_⟩
  simp only [select] at hfound
  obtain ⟨answer, -, hfound⟩ := bind_eq_ok.1 hfound
  cases answer with
  | true => exact ih.2 found hfound
  | false =>
      obtain rfl := Except.ok.inj hfound
      exact List.forall_mem_nil _

theorem selectsAlike_like (pieces : List Piece) (hnames : within names)
    (ih : ∀ names, within names → SelectsAlike within root t after others names) :
    SelectsAlike within root t after (.like pieces :: others) names := by
  obtain ⟨hlisted, hclosed⟩ := h.listed names hnames
  have hname (name : Text) (hname : name ∈ namesIn t (pathAt root names)) :
      selectName after root pieces others names name = selectName t root pieces others names name ∧
        ∀ found, selectName t root pieces others names name = .ok found →
          ∀ out ∈ found, within out := by
    have hfurther := hclosed name hname
    have hasks := h.asks _ hfurther _ asksKind_isDirectory
    obtain ⟨hsame, hstays⟩ := ih _ hfurther
    unfold selectName
    refine ⟨by rw [hasks, hsame], fun found hfound => ?_⟩
    obtain ⟨answer, -, hfound⟩ := bind_eq_ok.1 hfound
    split at hfound
    · exact hstays found hfound
    · obtain rfl := Except.ok.inj hfound
      exact List.forall_mem_nil _
  unfold SelectsAlike
  rw [select_like, select_like, hlisted, mapM_congr fun name hmem => (hname name hmem).1]
  refine ⟨rfl, fun found hfound out hout => ?_⟩
  obtain ⟨name, hmem, list, hlist, hin⟩ := (mem_of_mapM_flatten hfound out).1 hout
  exact (hname name hmem).2 list hlist out hin

theorem selectsAlike_anyDepth (hnames : within names)
    (ih : ∀ names, within names → SelectsAlike within root t after others names) :
    SelectsAlike within root t after (.anyDepth :: others) names := by
  obtain ⟨hbelow, hclosed⟩ := h.below names hnames
  refine ⟨?_, fun found hfound out hout => ?_⟩
  · rw [select_anyDepth, select_anyDepth, hbelow,
      mapM_congr fun way hway => (ih _ (hclosed way hway)).1]
  · obtain ⟨hmem, -⟩ := mem_select_anyDepth hfound out
    obtain ⟨way, hway, list, hlist, hin⟩ := hmem.1 hout
    exact (ih _ (hclosed way hway)).2 list hlist out hin

theorem select_of_agree {steps : List Step} (hsteps : SpellsPlain steps) (hnames : within names) :
    SelectsAlike within root t after steps names := by
  induction steps generalizing names with
  | nil => exact selectsAlike_stay hnames fun t => rfl
  | cons step others ih =>
      have hothers (names : List Text) (hnames : within names) :
          SelectsAlike within root t after others names := ih hsteps.tail hnames
      cases step with
      | exactly name =>
          have hfurther := h.spelled names name hnames (hsteps _ List.mem_cons_self)
          exact selectsAlike_exactly h hfurther (hothers _ hfurther)
      | like pieces => exact selectsAlike_like h pieces hnames hothers
      | anyDepth => exact selectsAlike_anyDepth h hnames hothers
      | inside => exact selectsAlike_stay hnames fun t => rfl

/-- The same selection holds the same files. -/
theorem filesAlong_of_selectsAlike (hroot : asks after root isDirectory = asks t root isDirectory)
    {steps : List Step} (hselect : SelectsAlike within root t after steps []) :
    filesAlong after root steps = filesAlong t root steps := by
  obtain ⟨hsame, hstays⟩ := hselect
  unfold filesAlong
  rw [hroot, hsame]
  rcases hfound : select t root steps [] with path | found
  · rfl
  · have hfilter : found.filterM (fun names => asks after (pathAt root names) isFile) =
        found.filterM fun names => asks t (pathAt root names) isFile :=
      filterM_congr fun names hnames => h.asks names (hstays found hfound names hnames) _
        asksKind_isFile
    simp only [bind, Except.bind, hfilter]

end Selecting

/-! ## New contents -/

section Overwriting

variable {t : Tree} {news : News} (hnews : t.HasFilesFor news)

include hnews

theorem asks_overwrite {wanted : Arrival → Bool} (hwanted : AsksKind wanted) (p : Path) :
    asks (t.overwrite news) p wanted = asks t p wanted := by
  unfold asks
  rw [look_overwrite hnews]
  rcases t.look p with obstacle | arrival
  · cases obstacle <;> rfl
  · cases arrival with
    | file q held =>
        have hkind : (Entry.file ((news q).getD held)).kind = (Entry.file held).kind := rfl
        exact congrArg Except.ok (hwanted.2 q hkind)
    | _ => rfl

theorem namesIn_overwrite (p : Path) : namesIn (t.overwrite news) p = namesIn t p := by
  unfold namesIn
  rw [look_overwrite hnews]
  rcases t.look p with obstacle | (q | ⟨q, held⟩ | q)
  · rfl
  · simp only [Except.map, Arrival.renewed, overwrite, List.filterMap_map]
    rfl
  · rfl
  · rfl

theorem directoriesBelow_overwrite (hunique : (t.entries.map Prod.fst).Nodup) (p : Path) :
    directoriesBelow (t.overwrite news) p = directoriesBelow t p := by
  -- A path with new contents is listed as a file before and after.
  have hkind (place : Path × Entry) (hplace : place ∈ t.entries) :
      ((news place.1).map Entry.file).getD place.2 = .directory ↔ place.2 = .directory := by
    rcases hcontents : news place.1 with _ | contents
    · rfl
    · obtain ⟨held, hheld⟩ := Option.isSome_iff_exists.1 (hnews place.1 (by simp [hcontents]))
      have hentry := fileAt_eq_some.1 hheld
      have htop := ne_top_of_entry?_ne (ne_directory_of_file hentry)
      rw [(mem_entries_iff hunique htop).1 hplace] at hentry
      simp [Option.some.inj hentry]
  unfold directoriesBelow
  rw [look_overwrite hnews]
  rcases t.look p with obstacle | (q | ⟨q, held⟩ | q)
  · rfl
  · simp only [Except.map, Arrival.renewed, overwrite, List.filterMap_map]
    congr 1
    refine List.filterMap_congr fun place hplace => ?_
    simp only [Function.comp_apply, hkind place hplace]
  · rfl
  · rfl

theorem agree_overwrite (hunique : (t.entries.map Prod.fst).Nodup) (root : Path) :
    Agree (fun _ => True) root t (t.overwrite news) where
  asks _ _ _ hwanted := asks_overwrite hnews hwanted _
  listed _ _ := ⟨namesIn_overwrite hnews _, fun _ _ => trivial⟩
  below _ _ := ⟨directoriesBelow_overwrite hnews hunique _, fun _ _ => trivial⟩
  spelled _ _ _ _ := trivial

/-- New contents of files make no difference to which files are selected. -/
theorem filesAlong_overwrite (hunique : (t.entries.map Prod.fst).Nodup) (root : Path)
    {steps : List Step} (hsteps : SpellsPlain steps) :
    filesAlong (t.overwrite news) root steps = filesAlong t root steps :=
  have hagree := agree_overwrite hnews hunique root
  filesAlong_of_selectsAlike hagree (asks_overwrite hnews asksKind_isDirectory root)
    (select_of_agree hagree hsteps trivial)

end Overwriting

/-! ## New entries -/

/-- Proper names off the way to `fresh`. -/
def OffWay (fresh names : List Text) : Prop :=
  (∀ name ∈ names, Path.IsProper name) ∧ ¬names <+: fresh

theorem OffWay.append {fresh names more : List Text} (h : OffWay fresh names)
    (hmore : ∀ name ∈ more, Path.IsProper name) : OffWay fresh (names ++ more) :=
  ⟨List.forall_mem_append.2 ⟨h.1, hmore⟩, fun hpre => h.2 ((List.prefix_append _ _).trans hpre)⟩

section Extending

variable {t after : Tree} {root : Path} {fresh : List Text} (h : t.Linkless root)
  (hafter : after.Linkless root) (hextends : Extends root fresh t after)

include h hafter hextends

theorem asks_extends {names : List Text} (hnames : OffWay fresh names) {wanted : Arrival → Bool}
    (hwanted : AsksKind wanted) :
    asks after (pathAt root names) wanted = asks t (pathAt root names) wanted := by
  rw [asks_eq hafter hnames.1 hwanted.1, asks_eq h hnames.1 hwanted.1,
    hextends.entry?_off_way hnames.2]

/-- Off the way the same directories can be listed. -/
theorem look_directory_extends {names : List Text} (hnames : OffWay fresh names) (q : Path) :
    after.look (pathAt root names) = .ok (.directory q) ↔
      t.look (pathAt root names) = .ok (.directory q) := by
  have hgo {t after : Tree} (h : t.Linkless root) (hafter : after.Linkless root)
      (hsame : after.entry? (pathAt root names) = t.entry? (pathAt root names))
      (hlook : t.look (pathAt root names) = .ok (.directory q)) :
      after.look (pathAt root names) = .ok (.directory q) := by
    obtain ⟨hq, hsolid⟩ := h.found_of_look (fun name hname => (hnames.1 name hname).isStep) hlook
    obtain rfl : q = pathAt root names := hq
    exact hafter.look_directory (hsame.trans hsolid.entry?) (short_of_look hlook)
  have hsame := hextends.entry?_off_way hnames.2
  exact ⟨hgo hafter h hsame.symm, hgo h hafter hsame⟩

theorem namesIn_extends {names : List Text} (hnames : OffWay fresh names) :
    namesIn after (pathAt root names) = namesIn t (pathAt root names) := by
  have hsame := look_directory_extends h hafter hextends hnames
  unfold namesIn
  split
  · next q hlook =>
    rw [(hsame q).1 hlook]
    obtain rfl : q = pathAt root names := (hafter.found_of_look
      (fun name hname => (hnames.1 name hname).isStep) hlook).1
    obtain ⟨new, hnew, hway⟩ := hextends
    rw [hnew, List.filterMap_append, List.append_right_eq_self]
    refine List.filterMap_eq_nil_iff.2 fun place hplace => if_neg ?_
    rintro ⟨hparent, htop⟩
    obtain ⟨⟨before, hbefore, hp⟩, -⟩ := hway place hplace
    refine hnames.2 ?_
    rcases List.eq_nil_or_concat before with rfl | ⟨above, name, rfl⟩
    · -- The root itself lies in no directory below it.
      rw [pathAt_nil] at hp
      have hlength := congrArg (fun p => p.names.length) hparent
      have hne : root.names ≠ [] := fun hnil => htop (hp.trans (Path.eq_top_of_names_nil hnil))
      have hpos := List.length_pos_iff.2 hne
      simp only [hp, Path.parent, pathAt, List.length_dropLast, List.length_append] at hlength
      omega
    · rw [List.concat_eq_append] at hp hbefore
      rw [hp, parent_pathAt, pathAt_inj] at hparent
      subst hparent
      exact (List.prefix_append _ _).trans hbefore
  · next hno =>
    split
    · next q hlook => exact absurd ((hsame q).2 hlook) (hno q)
    · rfl

theorem directoriesBelow_extends {names : List Text} (hnames : OffWay fresh names) :
    directoriesBelow after (pathAt root names) = directoriesBelow t (pathAt root names) := by
  have hsame := look_directory_extends h hafter hextends hnames
  unfold directoriesBelow
  split
  · next q hlook =>
    rw [(hsame q).1 hlook]
    obtain rfl : q = pathAt root names := (hafter.found_of_look
      (fun name hname => (hnames.1 name hname).isStep) hlook).1
    obtain ⟨new, hnew, hway⟩ := hextends
    simp only
    rw [hnew, List.filterMap_append, List.cons_inj_right, List.append_right_eq_self]
    refine List.filterMap_eq_nil_iff.2 fun place hplace => ?_
    obtain ⟨⟨before, hbefore, hp⟩, -⟩ := hway place hplace
    refine ite_eq_right_iff.2 fun _ => Option.eq_none_iff_forall_not_mem.2 fun way hmem => ?_
    have heq := namesTo?_eq_some_iff.1 hmem
    rw [hp, ← pathAt_append, pathAt_inj] at heq
    subst heq
    exact hnames.2 ((List.prefix_append _ _).trans hbefore)
  · next hno =>
    split
    · next q hlook => exact absurd ((hsame q).2 hlook) (hno q)
    · rfl

theorem agree_extends : Agree (OffWay fresh) root t after where
  asks names hnames wanted hwanted := asks_extends h hafter hextends hnames hwanted
  listed names hnames := by
    refine ⟨namesIn_extends h hafter hextends hnames, fun name hname => hnames.append ?_⟩
    refine List.forall_mem_singleton.2 ?_
    rcases hlook : t.look (pathAt root names) with obstacle | (q | ⟨q, held⟩ | q)
    · simp [namesIn, hlook] at hname
    · have hthere := (mem_namesIn_iff hlook).1 hname
      obtain rfl : q = pathAt root names := (h.found_of_look
        (fun name hname => (hnames.1 name hname).isStep) hlook).1
      obtain ⟨entry, hentry⟩ := Option.isSome_iff_exists.1 hthere
      rw [child_pathAt] at hentry
      exact h.names _ entry hentry name (by simp)
    · simp [namesIn, hlook] at hname
    · simp [namesIn, hlook] at hname
  below names hnames := by
    refine ⟨directoriesBelow_extends h hafter hextends hnames, fun way hway => hnames.append ?_⟩
    rcases hlook : t.look (pathAt root names) with obstacle | (q | ⟨q, held⟩ | q)
    · simp [directoriesBelow, hlook] at hway
    · have hentry := (mem_directoriesBelow_iff h.unique hlook).1 hway
      obtain rfl : q = pathAt root names := (h.found_of_look
        (fun name hname => (hnames.1 name hname).isStep) hlook).1
      rw [← pathAt_append] at hentry
      exact fun name hname => h.names _ _ hentry name (List.mem_append_right _ hname)
    · simp [directoriesBelow, hlook] at hway
    · simp [directoriesBelow, hlook] at hway
  spelled names name hnames hname :=
    hnames.append (List.forall_mem_singleton.2 hname.isProper)

omit hextends in
theorem asks_root : asks after root isDirectory = asks t root isDirectory := by
  rw [asks, asks, h.lookRoot, hafter.lookRoot]

/-- A pattern whose first name leads off the way selects the same files. -/
theorem filesAlong_extends {first : Text} {others : List Step}
    (hsteps : SpellsPlain (.exactly first :: others)) (hfirst : ¬[first] <+: fresh) :
    filesAlong after root (.exactly first :: others) =
      filesAlong t root (.exactly first :: others) := by
  have hagree := agree_extends h hafter hextends
  have hplain : Path.IsPlain first := hsteps _ List.mem_cons_self
  have hoff : OffWay fresh ([] ++ [first]) := ⟨List.forall_mem_singleton.2 hplain.isProper, hfirst⟩
  exact filesAlong_of_selectsAlike hagree (asks_root h hafter)
    (selectsAlike_exactly hagree hoff (select_of_agree hagree hsteps.tail hoff))

end Extending

section Selected

variable {t : Tree} {root : Path} {steps : List Step} {found : List (List Text)}
  {names : List Text}

theorem select_of_mem_filesAlong (hfound : filesAlong t root steps = .ok found)
    (hnames : names ∈ found) :
    ∃ selected, select t root steps [] = .ok selected ∧ names ∈ selected ∧
      asks t (pathAt root names) isFile = .ok true := by
  unfold filesAlong at hfound
  obtain ⟨answer, -, hfound⟩ := bind_eq_ok.1 hfound
  split at hfound
  · obtain ⟨selected, hselect, hfound⟩ := bind_eq_ok.1 hfound
    exact ⟨selected, hselect, (mem_of_filterM hfound names).1 hnames⟩
  · obtain rfl := Except.ok.inj hfound
    cases hnames

/-- The names of a file that a pattern with a name at its end selects fit the pattern. -/
theorem fits_of_mem_filesAlong {between : List Step} {last : Text} (hinside : .inside ∉ between)
    (hfound : filesAlong t root (between ++ [.exactly last]) = .ok found) (hnames : names ∈ found) :
    Fits (between ++ [.exactly last]) names := by
  obtain ⟨selected, hselect, hmem, -⟩ := select_of_mem_filesAlong hfound hnames
  obtain ⟨rest, rfl, hfits⟩ := fits_of_mem_select hinside hselect names hmem
  exact hfits

/-- What a pattern with a name at its start selects are files at names that a file system has. -/
theorem file_of_mem_filesAlong (h : t.Linkless root) {first : Text} {others : List Step}
    (hsteps : SpellsPlain (.exactly first :: others))
    (hfound : filesAlong t root (.exactly first :: others) = .ok found) (hnames : names ∈ found) :
    (∀ name ∈ names, Path.IsProper name) ∧
      ∃ held, t.entry? (pathAt root names) = some (.file held) := by
  obtain ⟨selected, hselect, hmem, hasks⟩ := select_of_mem_filesAlong hfound hnames
  have hagree := agree_extends h h (.refl root [] t)
  have hplain : Path.IsPlain first := hsteps _ List.mem_cons_self
  have hoff : OffWay [] ([] ++ [first]) := ⟨List.forall_mem_singleton.2 hplain.isProper, by simp⟩
  have hproper := ((selectsAlike_exactly hagree hoff
    (select_of_agree hagree hsteps.tail hoff)).2 selected hselect names hmem).1
  refine ⟨hproper, ?_⟩
  rw [asks_eq h hproper fun p => rfl] at hasks
  split at hasks
  · cases hasks
  · obtain ⟨entry, hentry, hfile⟩ := (Option.any_eq_true _ _).1 (Except.ok.inj hasks)
    cases entry with
    | file held => exact ⟨held, hentry⟩
    | directory => cases hfile
    | link target => cases hfile

end Selected

/-! ### Patterns that begin on the way -/

/-- Along names that are spelled out a selection goes on in the directory at their end, if there is
one. -/
theorem select_chain {t : Tree} {root : Path} (h : t.Linkless root) {chain names : List Text}
    {others : List Step} (hothers : others ≠ [])
    (hproper : ∀ name ∈ names ++ chain, Path.IsProper name)
    (hshort : octetCount (pathAt root (names ++ chain)).text < pathLimit)
    (hhere : t.entry? (pathAt root names) = some .directory) :
    select t root (chain.map .exactly ++ others) names =
      if t.entry? (pathAt root (names ++ chain)) = some .directory then
        select t root others (names ++ chain)
      else .ok [] := by
  induction chain generalizing names with
  | nil => simp [hhere]
  | cons name chain ih =>
      rw [List.append_cons] at hproper hshort ⊢
      have hfurther : ∀ n ∈ names ++ [name], Path.IsProper n :=
        fun n hn => hproper n (List.mem_append_left _ hn)
      have hnear : octetCount (pathAt root (names ++ [name])).text < pathLimit := by
        refine Nat.lt_of_le_of_lt (octetCount_text_le ?_) hshort
        rw [pathAt_append root (names ++ [name]) chain]
        exact List.prefix_append _ chain
      have hmore : (chain.map Step.exactly ++ others).isEmpty = false := by
        simp [hothers]
      rw [List.map_cons, List.cons_append, select]
      simp only [hmore, Bool.false_eq_true, if_false]
      rw [asks_eq h hfurther fun p => rfl, if_neg (Nat.not_le.2 hnear)]
      by_cases hentry : t.entry? (pathAt root (names ++ [name])) = some .directory
      · rw [hentry, ← ih hproper hshort hentry]
        rfl
      · have hend : t.entry? (pathAt root (names ++ [name] ++ chain)) ≠ some .directory := by
          intro hdirectory
          by_cases hnil : chain = []
          · rw [hnil, List.append_nil] at hdirectory
            exact hentry hdirectory
          · exact hentry (h.directory_of_append hnil hdirectory)
        rw [if_neg hend]
        rcases hsome : t.entry? (pathAt root (names ++ [name])) with _ | (_ | _ | target)
        · rfl
        · rfl
        · exact absurd hsome hentry
        · exact absurd hsome (h.noLink _ target)

/-- A pattern whose names lead off the way selects the same files, if the path at their end is not
too long. -/
theorem filesAlong_extends_chain {t after : Tree} {root : Path} {fresh : List Text}
    (h : t.Linkless root) (hafter : after.Linkless root) (hextends : Extends root fresh t after)
    {chain : List Text} {others : List Step} (hothers : others ≠ []) (hsteps : SpellsPlain others)
    (hchain : OffWay fresh chain)
    (hshort : octetCount (pathAt root chain).text < pathLimit) :
    filesAlong after root (chain.map .exactly ++ others) =
      filesAlong t root (chain.map .exactly ++ others) := by
  have hagree := agree_extends h hafter hextends
  refine filesAlong_of_selectsAlike hagree (asks_root h hafter) ?_
  have hroot {t : Tree} (h : t.Linkless root) : t.entry? (pathAt root []) = some .directory := by
    rw [pathAt_nil]
    exact h.solid_root.entry?
  have hselect := @select_chain t root h chain [] others hothers hchain.1 hshort (hroot h)
  have hlater := @select_chain after root hafter chain [] others hothers hchain.1 hshort
    (hroot hafter)
  have hentry := hextends.entry?_off_way hchain.2
  rw [List.nil_append] at hselect hlater
  rw [hentry] at hlater
  by_cases hdirectory : t.entry? (pathAt root chain) = some .directory
  · rw [if_pos hdirectory] at hselect hlater
    obtain ⟨hsame, hstays⟩ := select_of_agree hagree hsteps hchain
    exact ⟨by rw [hselect, hlater, hsame], fun found hfound => hstays found (hselect ▸ hfound)⟩
  · rw [if_neg hdirectory] at hselect hlater
    exact selectsAlike_nothing hselect hlater

end BundleHook.Glob
