import BundleHook.Proofs.Glob.Selection

/-!
# The files that a pattern selects

A project that has grown answers a pattern no differently, as long as what is new does not fit:
where the pattern can be tried in the grown project, it could be tried before, and in both it
selects the files whose names fit.
-/

namespace BundleHook.Glob

open Tree

/-! ## Selecting in a project that has grown -/

/-- The question asks for the kind of an entry only, and nothing free is wanted. -/
def AsksKind (wanted : Arrival → Bool) : Prop :=
  (∀ p, wanted (.free p) = false) ∧ ∀ p {entry later : Entry}, later.kind = entry.kind →
    wanted (later.arrival p) = wanted (entry.arrival p)

theorem asksKind_isThere : AsksKind isThere := by
  refine ⟨fun p => rfl, fun p entry later _ => ?_⟩
  cases entry <;> cases later <;> rfl

theorem asksKind_isDirectory : AsksKind isDirectory := by
  refine ⟨fun p => rfl, fun p entry later hkind => ?_⟩
  cases entry <;> cases later <;> first | rfl | cases hkind

theorem asksKind_isFile : AsksKind isFile := by
  refine ⟨fun p => rfl, fun p entry later hkind => ?_⟩
  cases entry <;> cases later <;> first | rfl | cases hkind

/-- From every directory on, what can be selected in the grown project could be selected before, and
was no more than that. -/
def Precedes (t after : Tree) (root : Path) (steps : List Step) : Prop :=
  ∀ names later, (∀ name ∈ names, Path.IsPlain name) →
    (steps ≠ [] → t.entry? (pathAt root names) = some .directory) →
    select after root steps names = .ok later →
    ∃ found, select t root steps names = .ok found ∧
      ∀ out ∈ found, out ∈ later ∧ ∀ name ∈ out, Path.IsPlain name

theorem precedes_stay {t after : Tree} {root : Path} {steps : List Step}
    (hstay : ∀ t names, select t root steps names = .ok [names]) : Precedes t after root steps := by
  intro names later hnames _ hselect
  rw [hstay] at hselect
  obtain rfl := Except.ok.inj hselect
  refine ⟨[names], hstay t names, fun out hout => ⟨hout, ?_⟩⟩
  rwa [List.mem_singleton.1 hout]

section Growing

variable {t after : Tree} {root : Path} {fresh : List Text} (h : t.Plain root)
  (hafter : after.Plain root) (hgrows : Grows root fresh t after) {others : List Step}

include h hafter hgrows

/-- A question that is answered in the grown project was answered before; what was there is
there. -/
theorem asks_of_grows {names : List Text} (hnames : ∀ name ∈ names, Path.IsPlain name)
    {wanted : Arrival → Bool} (hwanted : AsksKind wanted) {answer : Bool}
    (hasks : asks after (pathAt root names) wanted = .ok answer) :
    ∃ before, asks t (pathAt root names) wanted = .ok before ∧ (before = true → answer = true) := by
  have hproper (name : Text) (hname : name ∈ names) : Path.IsProper name :=
    (hnames name hname).isProper
  rw [asks_eq hafter.linkless hproper hwanted.1] at hasks
  rw [asks_eq h.linkless hproper hwanted.1]
  split at hasks
  · cases hasks
  · next hshort =>
    rw [if_neg hshort]
    refine ⟨_, rfl, fun htrue => ?_⟩
    obtain rfl := Except.ok.inj hasks
    obtain ⟨entry, hentry, hthis⟩ := (Option.any_eq_true _ _).1 htrue
    obtain ⟨later, hlater, hkind⟩ := hgrows.kept _ entry hentry
    exact (Option.any_eq_true _ _).2 ⟨later, hlater, (hwanted.2 _ hkind).trans hthis⟩

theorem precedes_exactly {name : Text} (hname : Path.IsPlain name)
    (ih : Precedes t after root others) : Precedes t after root (.exactly name :: others) := by
  intro names later hnames _ hselect
  have hfurther (n : Text) (hn : n ∈ names ++ [name]) : Path.IsPlain n := by
    rcases List.mem_append.1 hn with hn | hn
    · exact hnames n hn
    · rwa [List.mem_singleton.1 hn]
  simp only [select] at hselect ⊢
  have hwanted : AsksKind (if others.isEmpty then isThere else isDirectory) := by
    split
    · exact asksKind_isThere
    · exact asksKind_isDirectory
  obtain ⟨answer, hasks, hselect⟩ := bind_eq_ok.1 hselect
  obtain ⟨before, hbefore, hstays⟩ := asks_of_grows h hafter hgrows hfurther hwanted hasks
  rw [hbefore]
  cases before with
  | false => exact ⟨[], rfl, List.forall_mem_nil _⟩
  | true =>
      obtain rfl := hstays rfl
      refine ih _ later hfurther (fun hne => ?_) hselect
      rw [if_neg (by simpa using hne)] at hbefore
      exact (asks_isDirectory h hfurther hbefore).2.1 rfl

theorem selectName_of_grows {pieces : List Piece} (ih : Precedes t after root others)
    {names : List Text} {name : Text} (hfurther : ∀ n ∈ names ++ [name], Path.IsPlain n)
    {later : List (List Text)}
    (hselect : selectName after root pieces others names name = .ok later) :
    ∃ found, selectName t root pieces others names name = .ok found ∧
      ∀ out ∈ found, out ∈ later ∧ ∀ n ∈ out, Path.IsPlain n := by
  unfold selectName at hselect ⊢
  obtain ⟨answer, hasks, hselect⟩ := bind_eq_ok.1 hselect
  obtain ⟨before, hbefore, hstays⟩ :=
    asks_of_grows h hafter hgrows hfurther asksKind_isDirectory hasks
  rw [hbefore]
  simp only [bind, Except.bind]
  by_cases hgoes : (covers pieces name && (others.isEmpty || before)) = true
  · rw [if_pos hgoes]
    rw [Bool.and_eq_true, Bool.or_eq_true] at hgoes
    have hlater : (covers pieces name && (others.isEmpty || answer)) = true := by
      rw [Bool.and_eq_true, Bool.or_eq_true]
      exact ⟨hgoes.1, hgoes.2.imp_right hstays⟩
    rw [if_pos hlater] at hselect
    refine ih _ later hfurther (fun hne => ?_) hselect
    exact (asks_isDirectory h hfurther hbefore).2.1 (hgoes.2.resolve_left (by simpa using hne))
  · rw [if_neg hgoes]
    exact ⟨[], rfl, List.forall_mem_nil _⟩

theorem precedes_like (pieces : List Piece) (ih : Precedes t after root others) :
    Precedes t after root (.like pieces :: others) := by
  intro names later hnames hhere hselect
  have hdirectory := hhere (List.cons_ne_nil _ _)
  rw [select_like] at hselect ⊢
  refine mapM_flatten_of_fewer hselect fun name hname => ?_
  obtain ⟨hshort, hthere⟩ := (mem_namesIn_pathAt_iff h hnames hdirectory).1 hname
  obtain ⟨entry, hentry⟩ := Option.isSome_iff_exists.1 hthere
  obtain ⟨entry', hentry', -⟩ := hgrows.kept _ entry hentry
  refine ⟨?_, fun list hlist => selectName_of_grows h hafter hgrows ih (h.names _ _ hentry) hlist⟩
  exact (mem_namesIn_pathAt_iff hafter hnames (hgrows.directory hdirectory)).2
    ⟨hshort, by rw [hentry']; rfl⟩

theorem precedes_anyDepth (ih : Precedes t after root others) :
    Precedes t after root (.anyDepth :: others) := by
  intro names later hnames hhere hselect
  have hdirectory := hhere (List.cons_ne_nil _ _)
  rw [select_anyDepth] at hselect ⊢
  rcases hall : (do
      let found ← (directoriesBelow after (pathAt root names)).mapM fun way =>
        select after root others (names ++ way)
      return found.flatten) with p | all
  · rw [hall] at hselect
    cases hselect
  rw [hall] at hselect
  obtain rfl : all.eraseDups = later := Except.ok.inj hselect
  obtain ⟨found, hfound, hless⟩ := mapM_flatten_of_fewer hall fun way hway => by
    obtain ⟨hshort, hentry⟩ := (mem_directoriesBelow_pathAt_iff h hnames hdirectory).1 hway
    have hafterEntry := hgrows.directory hdirectory
    refine ⟨(mem_directoriesBelow_pathAt_iff hafter hnames hafterEntry).2
      ⟨hshort, hgrows.directory hentry⟩, fun list hlist => ?_⟩
    exact ih _ list (h.names _ _ hentry) (fun _ => hentry) hlist
  refine ⟨found.eraseDups, by rw [hfound]; rfl, fun out hout => ?_⟩
  obtain ⟨hmem, hplain⟩ := hless out (List.mem_eraseDups.1 hout)
  exact ⟨List.mem_eraseDups.2 hmem, hplain⟩

theorem precedes_of_grows {steps : List Step} (hsteps : SpellsPlain steps) :
    Precedes t after root steps := by
  induction steps with
  | nil => exact precedes_stay fun t names => rfl
  | cons step others ih =>
      have hothers := ih hsteps.tail
      cases step with
      | exactly name =>
          exact precedes_exactly h hafter hgrows (hsteps _ List.mem_cons_self) hothers
      | like pieces => exact precedes_like h hafter hgrows pieces hothers
      | anyDepth => exact precedes_anyDepth h hafter hgrows hothers
      | inside => exact precedes_stay fun t names => rfl

end Growing

/-! ## The first text in order -/

/-- Texts in order, as the selected ones are. -/
def inOrder (texts : List Text) : List Text := texts.mergeSort fun a b => !decide (b < a)

theorem not_lt_of_head_inOrder {texts : List Text} {first text : Text}
    (hfirst : (inOrder texts).head? = some first) (htext : text ∈ texts) : ¬text < first := by
  have hpairwise : (inOrder texts).Pairwise fun a b => (!decide (b < a)) = true := by
    refine List.pairwise_mergeSort (fun a b c hab hbc => ?_) (fun a b => ?_) texts
    · simp only [Bool.not_eq_true', decide_eq_false_iff_not] at hab hbc ⊢
      exact fun hca => (List.le_trans hab hbc : ¬c < a) hca
    · simp only [Bool.or_eq_true, Bool.not_eq_true', decide_eq_false_iff_not]
      exact List.le_total a b
  have hmem : text ∈ inOrder texts := List.mem_mergeSort.2 htext
  obtain ⟨rest, hrest⟩ := List.head?_eq_some_iff.1 hfirst
  rw [hrest] at hpairwise hmem
  rcases List.mem_cons.1 hmem with rfl | hmem
  · exact List.lt_irrefl text
  · simpa using List.rel_of_pairwise_cons hpairwise hmem

/-- The first text in order depends on nothing but which texts there are. -/
theorem head_inOrder_eq {texts others : List Text} (hsame : ∀ text, text ∈ texts ↔ text ∈ others) :
    (inOrder texts).head? = (inOrder others).head? := by
  have hgo {some others : List Text} {first : Text} (hsame : ∀ text, text ∈ some ↔ text ∈ others)
      (hfirst : (inOrder some).head? = .some first) : (inOrder others).head? = .some first := by
    have hin : first ∈ others :=
      (hsame first).1 (List.mem_mergeSort.1 (List.mem_of_head? hfirst))
    have hne : inOrder others ≠ [] := List.ne_nil_of_mem (List.mem_mergeSort.2 hin)
    have hother : (inOrder others).head? = .some ((inOrder others).head hne) :=
      List.head?_eq_some_head hne
    have hback := List.mem_mergeSort.1 (List.mem_of_head? hother)
    have hfirstLast : ¬(inOrder others).head hne < first :=
      not_lt_of_head_inOrder hfirst ((hsame _).2 hback)
    have hotherLast : ¬first < (inOrder others).head hne := not_lt_of_head_inOrder hother hin
    have heq : (inOrder others).head hne = first := List.le_antisymm hotherLast hfirstLast
    rw [hother, heq]
  refine Option.ext fun first => ⟨hgo hsame, hgo fun text => (hsame text).symm⟩

/-! ## Selected files -/

section Files

variable {t : Tree} {root : Path} (h : t.Plain root) {steps : List Step}
  (hsteps : SpellsPlain steps)

include h

theorem entry?_pathAt_nil : t.entry? (pathAt root []) = some .directory := by
  rw [pathAt_nil]
  exact h.solid_root.entry?

/-- From a root that is there, the files are those among what is selected. -/
theorem filesAlong_eq : filesAlong t root steps = (do
    let selected ← select t root steps []
    selected.filterM fun names => asks t (pathAt root names) isFile) := by
  have hroot : asks t root isDirectory = .ok true := by
    rw [asks, h.lookRoot]
    rfl
  unfold filesAlong
  rw [hroot]
  rfl

include hsteps

/-- Of the paths of files a pattern selects those whose names fit. -/
theorem mem_select_iff {selected : List (List Text)}
    (hselect : select t root steps [] = .ok selected) {names : List Text}
    (hfile : (t.fileAt (pathAt root names)).isSome = true)
    (hshort : octetCount (pathAt root names).text < pathLimit) :
    names ∈ selected ↔ Fits steps names := by
  rw [finds_of_plain h hfile hshort hsteps [] selected (List.forall_mem_nil _)
    (fun _ => entry?_pathAt_nil h) hselect]
  simp

theorem select_of_grows {after : Tree} {fresh : List Text} (hafter : after.Plain root)
    (hgrows : Grows root fresh t after) {later : List (List Text)}
    (hselect : select after root steps [] = .ok later) :
    ∃ found, select t root steps [] = .ok found ∧
      ∀ out ∈ found, out ∈ later ∧ ∀ n ∈ out, Path.IsPlain n :=
  precedes_of_grows h hafter hgrows hsteps [] later (List.forall_mem_nil _)
    (fun _ => entry?_pathAt_nil h) hselect

/-- The files that are selected are those whose names fit. -/
theorem mem_filesAlong_iff {found : List (List Text)} (hfound : filesAlong t root steps = .ok found)
    {names : List Text} :
    names ∈ found ↔ Fits steps names ∧ (t.fileAt (pathAt root names)).isSome = true ∧
      octetCount (pathAt root names).text < pathLimit := by
  rw [filesAlong_eq h] at hfound
  obtain ⟨selected, hselect, hfound⟩ := bind_eq_ok.1 hfound
  obtain ⟨same, hsame, hplain⟩ := select_of_grows h hsteps h (.refl root [] t) hselect
  obtain rfl := Except.ok.inj (hselect.symm.trans hsame)
  rw [mem_of_filterM hfound]
  constructor
  · rintro ⟨hmem, hasks⟩
    obtain ⟨hshort, hfile⟩ := asks_isFile h (hplain names hmem).2 hasks
    exact ⟨(mem_select_iff h hsteps hselect hfile.symm hshort).1 hmem, hfile.symm, hshort⟩
  · rintro ⟨hthese, hfile, hshort⟩
    refine ⟨(mem_select_iff h hsteps hselect hfile hshort).2 hthese, ?_⟩
    rw [asks_eq h.linkless (fun n hn => (isPlain_of_file h hfile n hn).isProper) fun p => rfl,
      if_neg (Nat.not_le.2 hshort)]
    obtain ⟨contents, hcontents⟩ := Option.isSome_iff_exists.1 hfile
    rw [fileAt_eq_some.1 hcontents]
    rfl

/-- A pattern that can be tried in the grown project could be tried before. -/
theorem filesAlong_of_grows {after : Tree} {fresh : List Text} (hafter : after.Plain root)
    (hgrows : Grows root fresh t after) {later : List (List Text)}
    (hlater : filesAlong after root steps = .ok later) :
    ∃ found, filesAlong t root steps = .ok found := by
  rw [filesAlong_eq hafter] at hlater
  rw [filesAlong_eq h]
  obtain ⟨selected, hselect, hlater⟩ := bind_eq_ok.1 hlater
  obtain ⟨found, hfound, hless⟩ := select_of_grows h hsteps hafter hgrows hselect
  rw [hfound]
  refine exists_filterM_iff.2 fun names hnames => ?_
  obtain ⟨hmem, hplain⟩ := hless names hnames
  obtain ⟨answer, hasks⟩ := exists_filterM_iff.1 ⟨later, hlater⟩ names hmem
  obtain ⟨before, hbefore, -⟩ := asks_of_grows h hafter hgrows hplain asksKind_isFile hasks
  exact ⟨before, hbefore⟩

/-- Where no new file fits, the first file that is selected is the same before and after. -/
theorem selectedTexts_of_grows {after : Tree} {fresh : List Text} (hafter : after.Plain root)
    (hgrows : Grows root fresh t after)
    (hold : ∀ names, Fits steps names → ¬names <+: fresh) {later : List Text}
    (hlater : selectedTexts after root steps = .ok later) :
    ∃ found, selectedTexts t root steps = .ok found ∧ found.head? = later.head? := by
  unfold selectedTexts at hlater ⊢
  obtain ⟨files, hfiles, hlater⟩ := bind_eq_ok.1 hlater
  obtain rfl : inOrder (files.map (Text.join ['/'])) = later := Except.ok.inj hlater
  obtain ⟨found, hfound⟩ := filesAlong_of_grows h hsteps hafter hgrows hfiles
  refine ⟨inOrder (found.map (Text.join ['/'])), by rw [hfound]; rfl, head_inOrder_eq ?_⟩
  have hsame (names : List Text) : names ∈ found ↔ names ∈ files := by
    rw [mem_filesAlong_iff h hsteps hfound, mem_filesAlong_iff hafter hsteps hfiles]
    refine and_congr_right fun hfits => ?_
    rw [hgrows.isSome_fileAt_off_way (hold names hfits)]
  intro text
  simp only [List.mem_map, hsame]

/-- A text that is selected is made of names that fit and that a file within reach has. -/
theorem fits_of_mem_selectedTexts {texts : List Text}
    (htexts : selectedTexts t root steps = .ok texts) {text : Text} (htext : text ∈ texts) :
    ∃ names, text = Text.join ['/'] names ∧ Fits steps names ∧
      (t.fileAt (pathAt root names)).isSome = true ∧
      octetCount (pathAt root names).text < pathLimit := by
  unfold selectedTexts at htexts
  obtain ⟨files, hfiles, htexts⟩ := bind_eq_ok.1 htexts
  obtain rfl : inOrder (files.map (Text.join ['/'])) = texts := Except.ok.inj htexts
  obtain ⟨names, hnames, rfl⟩ := List.mem_map.1 (List.mem_mergeSort.1 htext)
  exact ⟨names, rfl, (mem_filesAlong_iff h hsteps hfiles).1 hnames⟩

end Files

end BundleHook.Glob
