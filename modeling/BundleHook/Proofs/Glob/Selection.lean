import BundleHook.Proofs.Glob.Questions
import BundleHook.Proofs.Tree.Growth

/-!
# What a pattern selects

In a plain project a pattern selects the files whose names fit its steps: from every directory on, a
selection along some steps holds a file exactly when the rest of its names fits them.
-/

namespace BundleHook.Glob

open Tree

/-! ## Fitting names -/

/-- The names fit the steps, name by name; two stars stand for any directories before a name. -/
inductive Fits : List Step → List Text → Prop where
  | done : Fits [] []
  | exactly {name : Text} {others : List Step} {rest : List Text} (tail : Fits others rest) :
      Fits (.exactly name :: others) (name :: rest)
  | like {pieces : List Piece} {name : Text} {others : List Step} {rest : List Text}
      (covered : covers pieces name = true) (tail : Fits others rest) :
      Fits (.like pieces :: others) (name :: rest)
  | deep {others : List Step} {rest : List Text} (before : others ≠ []) (way : List Text)
      (tail : Fits others rest) : Fits (.anyDepth :: others) (way ++ rest)

theorem Fits.ne_nil {steps : List Step} {names : List Text} (h : Fits steps names)
    (hne : steps ≠ []) : names ≠ [] := by
  induction h with
  | done => exact absurd rfl hne
  | exactly => exact List.cons_ne_nil _ _
  | like => exact List.cons_ne_nil _ _
  | deep before way _ ih =>
      intro hnil
      exact ih before (List.append_eq_nil_iff.1 hnil).2

/-- A name that is spelled out comes first. -/
theorem Fits.exactly_cons {name : Text} {others : List Step} {names : List Text}
    (h : Fits (.exactly name :: others) names) :
    ∃ rest, names = name :: rest ∧ Fits others rest := by
  cases h with
  | exactly tail => exact ⟨_, rfl, tail⟩

/-- A name that is spelled out at the end comes last. -/
theorem Fits.append_exactly {others : List Step} {name : Text} {names : List Text}
    (h : Fits (others ++ [.exactly name]) names) : ∃ above, names = above ++ [name] := by
  induction others generalizing names with
  | nil =>
      obtain ⟨rest, rfl, htail⟩ := h.exactly_cons
      cases htail
      exact ⟨[], rfl⟩
  | cons step others ih =>
      cases h with
      | exactly tail =>
          obtain ⟨above, rfl⟩ := ih tail
          exact ⟨_ :: above, rfl⟩
      | like covered tail =>
          obtain ⟨above, rfl⟩ := ih tail
          exact ⟨_ :: above, rfl⟩
      | deep before way tail =>
          obtain ⟨above, rfl⟩ := ih tail
          exact ⟨way ++ above, (List.append_assoc _ _ _).symm⟩

/-- The name that a step spells out is plain. -/
def Step.IsPlain : Step → Prop
  | .exactly name => Path.IsPlain name
  | _ => True

instance (step : Step) : Decidable step.IsPlain :=
  match step with
  | .exactly name => inferInstanceAs (Decidable (Path.IsPlain name))
  | .like _ | .anyDepth | .inside => inferInstanceAs (Decidable True)

/-- The names that a pattern spells out are plain. -/
def SpellsPlain (steps : List Step) : Prop := ∀ step ∈ steps, step.IsPlain

instance (steps : List Step) : Decidable (SpellsPlain steps) := List.decidableBAll _ steps

/-! ## Asking in a project without links -/

/-- What is asked of a path is asked of its entry, unless the path is too long. -/
theorem asks_eq {t : Tree} {root : Path} (h : t.Linkless root) {names : List Text}
    (hnames : ∀ name ∈ names, Path.IsProper name) {wanted : Arrival → Bool}
    (hfree : ∀ p, wanted (.free p) = false) :
    asks t (pathAt root names) wanted =
      if pathLimit ≤ octetCount (pathAt root names).text then .error (pathAt root names)
      else .ok ((t.entry? (pathAt root names)).any fun entry =>
        wanted (entry.arrival (pathAt root names))) := by
  have hsteps (name : Text) (hname : name ∈ names) : Path.IsStep name := (hnames name hname).isStep
  have hall (name : Text) (hname : name ∈ names) := (hnames name hname).isShort
  by_cases hlong : pathLimit ≤ octetCount (pathAt root names).text
  · rw [if_pos hlong, asks, (h.look_eq_longName_iff hsteps hall).2 hlong]
  rw [if_neg hlong, asks]
  rcases hentry : t.entry? (pathAt root names) with _ | entry
  · have habsent := h.isAbsent_look hsteps hall hentry (Nat.lt_of_not_le hlong)
    rcases hlook : t.look (pathAt root names) with obstacle | arrival
    · rw [hlook] at habsent
      cases obstacle with
      | longName => exact absurd rfl habsent
      | _ => rfl
    · rw [hlook] at habsent
      cases arrival with
      | free q => exact congrArg Except.ok (hfree q)
      | _ => cases habsent
  · rw [h.look_of_entry hentry (Nat.lt_of_not_le hlong)]
    rfl

/-! ## Asking in a plain project -/

section Asking

variable {t : Tree} {root : Path} (h : t.Plain root) {names : List Text}

include h

theorem asks_isDirectory (hnames : ∀ name ∈ names, Path.IsPlain name) {answer : Bool}
    (hasks : asks t (pathAt root names) isDirectory = .ok answer) :
    octetCount (pathAt root names).text < pathLimit ∧
      (answer = true ↔ t.entry? (pathAt root names) = some .directory) := by
  rw [asks_eq h.linkless (fun n hn => (hnames n hn).isProper) fun p => rfl] at hasks
  split at hasks
  · cases hasks
  · next hshort =>
    obtain rfl := Except.ok.inj hasks
    refine ⟨Nat.lt_of_not_le hshort, ?_⟩
    rcases hentry : t.entry? (pathAt root names) with _ | entry
    · simp
    · cases entry with
      | link target => exact absurd hentry (h.noLink names target)
      | _ => simp [Entry.arrival, isDirectory]

theorem asks_isThere (hnames : ∀ name ∈ names, Path.IsPlain name) {answer : Bool}
    (hasks : asks t (pathAt root names) isThere = .ok answer) :
    answer = (t.entry? (pathAt root names)).isSome := by
  rw [asks_eq h.linkless (fun n hn => (hnames n hn).isProper) fun p => rfl] at hasks
  split at hasks
  · cases hasks
  · obtain rfl := Except.ok.inj hasks
    rcases t.entry? (pathAt root names) with _ | (_ | _ | _) <;> rfl

theorem asks_isFile (hnames : ∀ name ∈ names, Path.IsPlain name) {answer : Bool}
    (hasks : asks t (pathAt root names) isFile = .ok answer) :
    octetCount (pathAt root names).text < pathLimit ∧
      answer = (t.fileAt (pathAt root names)).isSome := by
  rw [asks_eq h.linkless (fun n hn => (hnames n hn).isProper) fun p => rfl] at hasks
  split at hasks
  · cases hasks
  · next hshort =>
    obtain rfl := Except.ok.inj hasks
    refine ⟨Nat.lt_of_not_le hshort, ?_⟩
    unfold fileAt
    rcases t.entry? (pathAt root names) with _ | (_ | _ | _) <;> rfl

end Asking

/-! ### The names in a directory and the directories below it -/

theorem mem_namesIn_iff {t : Tree} {p q : Path} (hlook : t.look p = .ok (.directory q))
    {name : Text} : name ∈ namesIn t p ↔ (t.entry? (q.child name)).isSome = true := by
  rw [isSome_entry?_iff (Path.child_ne_top q name)]
  unfold namesIn
  rw [hlook]
  simp only [List.mem_filterMap, Option.ite_none_right_eq_some, Option.some.injEq]
  constructor
  · rintro ⟨⟨r, entry⟩, hmem, ⟨hparent, htop⟩, hname⟩
    have hr : r.names ≠ [] := fun hnil => htop (Path.eq_top_of_names_nil hnil)
    refine ⟨entry, ?_⟩
    rwa [← hparent, ← hname, Path.child_parent_name hr]
  · rintro ⟨entry, hmem⟩
    refine ⟨(q.child name, entry), hmem, ⟨Path.parent_child q name, Path.child_ne_top q name⟩, ?_⟩
    simp [Path.name, Path.child]

theorem namesTo?_eq_some_iff {p q : Path} {way : List Text} :
    p.namesTo? q = some way ↔ q = ⟨p.names ++ way⟩ := by
  obtain ⟨names⟩ := q
  unfold Path.namesTo?
  simp only [Option.ite_none_right_eq_some, Option.some.injEq, Path.mk.injEq,
    List.isPrefixOf_iff_prefix]
  constructor
  · rintro ⟨⟨rest, rfl⟩, rfl⟩
    simp
  · rintro rfl
    exact ⟨List.prefix_append _ _, by simp⟩

theorem mem_directoriesBelow_iff {t : Tree} (h : (t.entries.map Prod.fst).Nodup) {p q : Path}
    (hlook : t.look p = .ok (.directory q)) {way : List Text} :
    way ∈ directoriesBelow t p ↔ t.entry? ⟨q.names ++ way⟩ = some .directory := by
  unfold directoriesBelow
  rw [hlook]
  simp only [List.mem_cons, List.mem_filterMap, Option.ite_none_right_eq_some]
  constructor
  · rintro (rfl | ⟨⟨r, entry⟩, hmem, ⟨rfl, hne⟩, hway⟩)
    · rw [List.append_nil]
      have hsolid : t.Solid q := found_of_look hlook
      exact hsolid.entry?
    · obtain rfl := namesTo?_eq_some_iff.1 hway
      by_cases htop : (⟨q.names ++ way⟩ : Path) = .top
      · rw [htop]
        exact t.entry?_top
      · exact (mem_entries_iff h htop).1 hmem
  · intro hentry
    by_cases hnil : way = []
    · exact .inl hnil
    · have hne : (⟨q.names ++ way⟩ : Path) ≠ q := fun heq => by
        have hlength := congrArg (fun p => p.names.length) heq
        have := List.length_pos_iff.2 hnil
        simp only [List.length_append] at hlength
        omega
      have htop : (⟨q.names ++ way⟩ : Path) ≠ .top := fun heq => by
        have hnames := congrArg Path.names heq
        exact hnil (List.append_eq_nil_iff.1 hnames).2
      exact .inr ⟨(_, .directory), (mem_entries_iff h htop).2 hentry, ⟨rfl, hne⟩,
        namesTo?_eq_some_iff.2 rfl⟩

section Listing

variable {t : Tree} {root : Path} (h : t.Plain root) {names : List Text}
  (hnames : ∀ name ∈ names, Path.IsPlain name)
  (hentry : t.entry? (pathAt root names) = some .directory)

include h hnames hentry

/-- A directory lists what stands in it, unless its path is too long. -/
theorem mem_namesIn_pathAt_iff {name : Text} :
    name ∈ namesIn t (pathAt root names) ↔
      octetCount (pathAt root names).text < pathLimit ∧
        (t.entry? (pathAt root (names ++ [name]))).isSome = true := by
  by_cases hshort : octetCount (pathAt root names).text < pathLimit
  · rw [mem_namesIn_iff (h.linkless.look_directory hentry hshort), child_pathAt]
    simp [hshort]
  · have hlook := (h.look_eq_longName_iff hnames).2 (Nat.le_of_not_lt hshort)
    simp [namesIn, hlook, hshort]

theorem mem_directoriesBelow_pathAt_iff {way : List Text} :
    way ∈ directoriesBelow t (pathAt root names) ↔
      octetCount (pathAt root names).text < pathLimit ∧
        t.entry? (pathAt root (names ++ way)) = some .directory := by
  by_cases hshort : octetCount (pathAt root names).text < pathLimit
  · rw [mem_directoriesBelow_iff h.unique (h.linkless.look_directory hentry hshort), pathAt_append]
    simp [hshort]
  · have hlook := (h.look_eq_longName_iff hnames).2 (Nat.le_of_not_lt hshort)
    simp [directoriesBelow, hlook, hshort]

end Listing

/-! ## Selected names -/

/-- What is selected from one name on. -/
def selectName (t : Tree) (root : Path) (pieces : List Piece) (others : List Step)
    (names : List Text) (name : Text) : Except Path (List (List Text)) := do
  let isBelow ← asks t (pathAt root (names ++ [name])) isDirectory
  if covers pieces name && (others.isEmpty || isBelow) then
    select t root others (names ++ [name])
  else return []

theorem select_like (t : Tree) (root : Path) (pieces : List Piece) (others : List Step)
    (names : List Text) :
    select t root (.like pieces :: others) names = do
      let found ← (namesIn t (pathAt root names)).mapM (selectName t root pieces others names)
      return found.flatten := by
  rw [select]
  rfl

theorem select_anyDepth (t : Tree) (root : Path) (others : List Step) (names : List Text) :
    select t root (.anyDepth :: others) names =
      (do
        let found ← (directoriesBelow t (pathAt root names)).mapM fun way =>
          select t root others (names ++ way)
        return found.flatten).map List.eraseDups := by
  rw [select]
  rcases (directoriesBelow t (pathAt root names)).mapM
    (fun way => select t root others (names ++ way)) with p | found <;> rfl

/-- What is found at any depth is found from one of the directories. -/
theorem mem_select_anyDepth {t : Tree} {root : Path} {others : List Step} {names : List Text}
    {found : List (List Text)} (h : select t root (.anyDepth :: others) names = .ok found)
    (out : List Text) :
    (out ∈ found ↔ ∃ way ∈ directoriesBelow t (pathAt root names), ∃ list,
        select t root others (names ++ way) = .ok list ∧ out ∈ list) ∧
      ∀ way ∈ directoriesBelow t (pathAt root names), ∃ list,
        select t root others (names ++ way) = .ok list := by
  rw [select_anyDepth] at h
  rcases hall : (do
      let found ← (directoriesBelow t (pathAt root names)).mapM fun way =>
        select t root others (names ++ way)
      return found.flatten) with p | all
  · rw [hall] at h
    cases h
  · rw [hall] at h
    obtain rfl : all.eraseDups = found := Except.ok.inj h
    rw [List.mem_eraseDups, mem_of_mapM_flatten hall]
    exact ⟨Iff.rfl, exists_mapM_flatten_iff.1 ⟨all, hall⟩⟩

/-- What is selected behind some names are these names with more that fit, whatever the tree is. -/
theorem fits_of_mem_select {t : Tree} {root : Path} {between : List Step} {last : Text}
    (hinside : .inside ∉ between) {names : List Text} {found : List (List Text)}
    (hselect : select t root (between ++ [.exactly last]) names = .ok found) :
    ∀ out ∈ found, ∃ rest, out = names ++ rest ∧ Fits (between ++ [.exactly last]) rest := by
  induction between generalizing names found with
  | nil =>
      intro out hout
      simp only [List.nil_append, select] at hselect
      obtain ⟨answer, -, hselect⟩ := bind_eq_ok.1 hselect
      split at hselect
      · obtain rfl := Except.ok.inj hselect
        exact ⟨[last], List.mem_singleton.1 hout, .exactly .done⟩
      · obtain rfl := Except.ok.inj hselect
        cases hout
  | cons step between ih =>
      obtain ⟨hstep, hothers⟩ := not_or.1 (mt List.mem_cons.2 hinside)
      have hne : between ++ [.exactly last] ≠ [] := by simp
      intro out hout
      cases step with
      | exactly name =>
          simp only [List.cons_append, select] at hselect
          obtain ⟨answer, -, hselect⟩ := bind_eq_ok.1 hselect
          split at hselect
          · obtain ⟨rest, rfl, hfits⟩ := ih hothers hselect out hout
            exact ⟨name :: rest, (List.append_cons names name rest).symm, .exactly hfits⟩
          · obtain rfl := Except.ok.inj hselect
            cases hout
      | like pieces =>
          rw [List.cons_append, select_like] at hselect
          obtain ⟨name, -, list, hlist, hin⟩ := (mem_of_mapM_flatten hselect out).1 hout
          unfold selectName at hlist
          obtain ⟨answer, -, hlist⟩ := bind_eq_ok.1 hlist
          split at hlist
          · next hgoes =>
            obtain ⟨rest, rfl, hfits⟩ := ih hothers hlist out hin
            exact ⟨name :: rest, (List.append_cons names name rest).symm,
              .like (Bool.and_eq_true_iff.1 hgoes).1 hfits⟩
          · obtain rfl := Except.ok.inj hlist
            cases hin
      | anyDepth =>
          obtain ⟨way, -, list, hlist, hin⟩ := ((mem_select_anyDepth hselect out).1).1 hout
          obtain ⟨rest, rfl, hfits⟩ := ih hothers hlist out hin
          exact ⟨way ++ rest, List.append_assoc names way rest, .deep hne way hfits⟩
      | inside => exact absurd rfl hstep

section Onward

variable {t : Tree} {root : Path} (h : t.Plain root) {others : List Step} {names : List Text}
  {name : Text} {found : List (List Text)}
  (hfurther : ∀ n ∈ names ++ [name], Path.IsPlain n)

include h hfurther

/-- Behind a name that a pattern matches a selection goes on, in a directory when there are more
steps. -/
theorem selectName_cases {pieces : List Piece}
    (hselect : selectName t root pieces others names name = .ok found) :
    (covers pieces name = true ∧
        (others ≠ [] → t.entry? (pathAt root (names ++ [name])) = some .directory) ∧
        select t root others (names ++ [name]) = .ok found) ∨
      (¬(covers pieces name = true ∧
          (others ≠ [] → t.entry? (pathAt root (names ++ [name])) = some .directory)) ∧
        found = []) := by
  unfold selectName at hselect
  obtain ⟨isBelow, hasks, hselect⟩ := bind_eq_ok.1 hselect
  have hbelow := (asks_isDirectory h hfurther hasks).2
  have hgoes : (covers pieces name && (others.isEmpty || isBelow)) = true ↔
      covers pieces name = true ∧
        (others ≠ [] → t.entry? (pathAt root (names ++ [name])) = some .directory) := by
    rw [Bool.and_eq_true, Bool.or_eq_true, List.isEmpty_iff, hbelow, or_iff_not_imp_left]
  split at hselect
  · next hon => exact .inl ⟨(hgoes.1 hon).1, (hgoes.1 hon).2, hselect⟩
  · next hstops => exact .inr ⟨mt hgoes.2 hstops, (Except.ok.inj hselect).symm⟩

/-- Behind a name that is spelled out a selection goes on when something is there, and in a
directory when there are more steps. -/
theorem select_exactly_cases (hselect : select t root (.exactly name :: others) names = .ok found) :
    ((others = [] → (t.entry? (pathAt root (names ++ [name]))).isSome = true) ∧
        (others ≠ [] → t.entry? (pathAt root (names ++ [name])) = some .directory) ∧
        select t root others (names ++ [name]) = .ok found) ∨
      (¬((others = [] → (t.entry? (pathAt root (names ++ [name]))).isSome = true) ∧
          (others ≠ [] → t.entry? (pathAt root (names ++ [name])) = some .directory)) ∧
        found = []) := by
  simp only [select] at hselect
  obtain ⟨answer, hasks, hselect⟩ := bind_eq_ok.1 hselect
  have hgoes : answer = true ↔
      (others = [] → (t.entry? (pathAt root (names ++ [name]))).isSome = true) ∧
        (others ≠ [] → t.entry? (pathAt root (names ++ [name])) = some .directory) := by
    by_cases hnil : others = []
    · subst hnil
      rw [asks_isThere h hfurther hasks]
      simp
    · rw [if_neg (by simpa using hnil)] at hasks
      rw [(asks_isDirectory h hfurther hasks).2]
      simp [hnil]
  cases answer with
  | true => exact .inl ⟨(hgoes.1 rfl).1, (hgoes.1 rfl).2, hselect⟩
  | false => exact .inr ⟨mt hgoes.2 Bool.false_ne_true, (Except.ok.inj hselect).symm⟩

end Onward

theorem SpellsPlain.tail {step : Step} {others : List Step} (h : SpellsPlain (step :: others)) :
    SpellsPlain others :=
  fun other hother => h other (List.mem_cons_of_mem step hother)

/-- From every directory on, a selection along the steps holds the names of `out` exactly when the
rest of them fits. -/
def Finds (t : Tree) (root : Path) (out : List Text) (steps : List Step) : Prop :=
  ∀ names found, (∀ name ∈ names, Path.IsPlain name) →
    (steps ≠ [] → t.entry? (pathAt root names) = some .directory) →
    select t root steps names = .ok found →
    (out ∈ found ↔ ∃ rest, out = names ++ rest ∧ Fits steps rest)

section Selecting

variable {t : Tree} {root : Path} (h : t.Plain root) {out : List Text}
  (hfile : (t.fileAt (pathAt root out)).isSome = true)

include hfile

/-- A file is no directory. -/
theorem not_directory_of_file : t.entry? (pathAt root out) ≠ some .directory := by
  intro hentry
  rw [isSome_fileAt_iff, hentry] at hfile
  cases hfile

include h

theorem isPlain_of_file : ∀ name ∈ out, Path.IsPlain name := by
  obtain ⟨contents, hcontents⟩ := Option.isSome_iff_exists.1 hfile
  exact h.names out _ (fileAt_eq_some.1 hcontents)

theorem directory_above_file {names rest : List Text} (hout : out = names ++ rest)
    (hrest : rest ≠ []) : t.entry? (pathAt root names) = some .directory := by
  obtain ⟨contents, hcontents⟩ := Option.isSome_iff_exists.1 hfile
  rw [hout] at hcontents
  exact h.directory_of_append hrest (fileAt_eq_some.1 hcontents)

/-- Something stands at every beginning of the names of a file. -/
theorem entry_above_file {names rest : List Text} (hout : out = names ++ rest) :
    ∃ entry, t.entry? (pathAt root names) = some entry := by
  by_cases hrest : rest = []
  · obtain ⟨contents, hcontents⟩ := Option.isSome_iff_exists.1 hfile
    rw [hrest, List.append_nil] at hout
    exact ⟨_, hout ▸ fileAt_eq_some.1 hcontents⟩
  · exact ⟨_, directory_above_file h hfile hout hrest⟩

omit h in
theorem finds_nil : Finds t root out [] := by
  intro names found _ _ hselect
  obtain rfl := Except.ok.inj hselect
  rw [List.mem_singleton]
  constructor
  · rintro rfl
    exact ⟨[], (List.append_nil out).symm, .done⟩
  · rintro ⟨rest, rfl, hfits⟩
    cases hfits
    exact List.append_nil names

omit h in
theorem finds_inside (others : List Step) : Finds t root out (.inside :: others) := by
  intro names found _ hhere hselect
  obtain rfl := Except.ok.inj hselect
  rw [List.mem_singleton]
  constructor
  · rintro rfl
    exact absurd (hhere (List.cons_ne_nil _ _)) (not_directory_of_file hfile)
  · rintro ⟨rest, -, hfits⟩
    cases hfits

omit h hfile in
/-- The beginnings of a short path are short. -/
theorem short_above {names rest : List Text} (hout : out = names ++ rest)
    (hshort : octetCount (pathAt root out).text < pathLimit) :
    octetCount (pathAt root names).text < pathLimit := by
  refine Nat.lt_of_le_of_lt (octetCount_text_le ?_) hshort
  rw [hout, pathAt_append]
  exact List.prefix_append _ rest

theorem finds_exactly {name : Text} (hname : Path.IsPlain name) {others : List Step}
    (ih : Finds t root out others) : Finds t root out (.exactly name :: others) := by
  intro names found hnames _ hselect
  have hfurther (n : Text) (hn : n ∈ names ++ [name]) : Path.IsPlain n := by
    rcases List.mem_append.1 hn with hn | hn
    · exact hnames n hn
    · rwa [List.mem_singleton.1 hn]
  rcases select_exactly_cases h hfurther hselect with ⟨-, hnext, hrest⟩ | ⟨hstops, rfl⟩
  · rw [ih (names ++ [name]) found hfurther hnext hrest]
    constructor
    · rintro ⟨rest, hout, hfits⟩
      exact ⟨name :: rest, by rw [hout, List.append_assoc]; rfl, .exactly hfits⟩
    · rintro ⟨rest, hout, hfits⟩
      cases hfits with
      | exactly tail => exact ⟨_, by rw [hout, List.append_assoc]; rfl, tail⟩
  · constructor
    · simp
    · rintro ⟨_, hout, hfits⟩
      cases hfits with
      | exactly tail =>
        rw [List.append_cons] at hout
        obtain ⟨entry, hentry⟩ := entry_above_file h hfile hout
        refine absurd ⟨fun _ => ?_, fun hne => ?_⟩ hstops
        · rw [hentry]
          rfl
        · exact directory_above_file h hfile hout (tail.ne_nil hne)

theorem finds_like (hshort : octetCount (pathAt root out).text < pathLimit) (pieces : List Piece)
    {others : List Step} (ih : Finds t root out others) :
    Finds t root out (.like pieces :: others) := by
  intro names found hnames hhere hselect
  have hdirectory := hhere (List.cons_ne_nil _ _)
  rw [select_like] at hselect
  rw [mem_of_mapM_flatten hselect]
  constructor
  · rintro ⟨name, hname, list, hlist, hout⟩
    have hthere := ((mem_namesIn_pathAt_iff h hnames hdirectory).1 hname).2
    obtain ⟨entry, hentry⟩ := Option.isSome_iff_exists.1 hthere
    have hfurther := h.names _ entry hentry
    rcases selectName_cases h hfurther hlist with ⟨covered, hnext, hrest⟩ | ⟨-, rfl⟩
    · obtain ⟨rest, heq, hfits⟩ := (ih _ list hfurther hnext hrest).1 hout
      exact ⟨name :: rest, by rw [heq, List.append_assoc]; rfl, .like covered hfits⟩
    · cases hout
  · rintro ⟨_, hout, hfits⟩
    cases hfits with
    | @like _ name _ rest covered tail =>
      rw [List.append_cons] at hout
      obtain ⟨entry, hentry⟩ := entry_above_file h hfile hout
      have hfurther := h.names _ entry hentry
      have hname : name ∈ namesIn t (pathAt root names) :=
        (mem_namesIn_pathAt_iff h hnames hdirectory).2
          ⟨short_above (hout.trans (List.append_assoc _ _ _)) hshort, by rw [hentry]; rfl⟩
      obtain ⟨list, hlist⟩ := exists_mapM_flatten_iff.1 ⟨found, hselect⟩ name hname
      refine ⟨name, hname, list, hlist, ?_⟩
      rcases selectName_cases h hfurther hlist with ⟨-, hnext, hrest⟩ | ⟨hstops, -⟩
      · exact (ih _ list hfurther hnext hrest).2 ⟨rest, hout, tail⟩
      · refine absurd ⟨covered, fun hne => ?_⟩ hstops
        exact directory_above_file h hfile hout (tail.ne_nil hne)

theorem finds_anyDepth (hshort : octetCount (pathAt root out).text < pathLimit)
    {others : List Step} (ih : Finds t root out others) :
    Finds t root out (.anyDepth :: others) := by
  intro names found hnames hhere hselect
  have hdirectory := hhere (List.cons_ne_nil _ _)
  obtain ⟨hmem, hall⟩ := mem_select_anyDepth hselect out
  have hway := @mem_directoriesBelow_pathAt_iff t root h names hnames hdirectory
  rw [hmem]
  constructor
  · rintro ⟨way, hbelow, list, hlist, hout⟩
    have hentry := (hway.1 hbelow).2
    obtain ⟨rest, hrest, hfits⟩ :=
      (ih _ list (h.names _ _ hentry) (fun _ => hentry) hlist).1 hout
    refine ⟨way ++ rest, by rw [hrest, List.append_assoc], .deep ?_ way hfits⟩
    rintro rfl
    cases hfits
    rw [hrest, List.append_nil] at hfile
    exact not_directory_of_file hfile hentry
  · rintro ⟨_, hout, hfits⟩
    cases hfits with
    | deep before way tail =>
      rw [← List.append_assoc] at hout
      have hentry := directory_above_file h hfile hout (tail.ne_nil before)
      have hnear := short_above (hout.trans (List.append_assoc _ _ _)) hshort
      have hbelow := hway.2 ⟨hnear, hentry⟩
      obtain ⟨list, hlist⟩ := hall way hbelow
      exact ⟨way, hbelow, list, hlist,
        (ih _ list (h.names _ _ hentry) (fun _ => hentry) hlist).2 ⟨_, hout, tail⟩⟩

/-- A file below the root is selected exactly when its names fit the steps. -/
theorem finds_of_plain (hshort : octetCount (pathAt root out).text < pathLimit) {steps : List Step}
    (hsteps : SpellsPlain steps) : Finds t root out steps := by
  induction steps with
  | nil => exact finds_nil hfile
  | cons step others ih =>
      have hothers := ih hsteps.tail
      cases step with
      | exactly name => exact finds_exactly h hfile (hsteps _ List.mem_cons_self) hothers
      | like pieces => exact finds_like h hfile hshort pieces hothers
      | anyDepth => exact finds_anyDepth h hfile hshort hothers
      | inside => exact finds_inside hfile others

end Selecting

end BundleHook.Glob
