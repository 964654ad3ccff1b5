import BundleHook.Proofs.Tree.Changes
import BundleHook.Proofs.Tree.Resolution

/-!
# New contents for files

Writing over a file changes nothing but what the file holds. A tree some of whose files have got new
contents has the same links and the same directories, so that every path leads where it did before,
and the order in which the contents were written makes no difference.

* `Tree.overwrite` — the tree with new contents for some of its files;
* `look_overwrite`, `resolve_overwrite` — paths lead where they did before;
* `put_overwrite` — one more file written over;
* `addDirectories_overwrite` — directories made in such a tree.
-/

namespace BundleHook

/-- New contents for some paths. -/
abbrev News := Path → Option Contents

namespace News

def nothing : News := fun _ => none

/-- The news with new contents for one more path. -/
def add (news : News) (p : Path) (contents : Contents) : News :=
  fun q => if q = p then some contents else news q

end News

/-- The same arrival in a tree with new contents. -/
def Arrival.renewed (news : News) : Arrival → Arrival
  | file p contents => file p ((news p).getD contents)
  | arrival => arrival

namespace Tree

/-- The tree with new contents for some of its files. -/
def overwrite (t : Tree) (news : News) : Tree :=
  ⟨t.entries.map fun place => (place.1, ((news place.1).map Entry.file).getD place.2)⟩

/-- There are new contents for files only. -/
def HasFilesFor (t : Tree) (news : News) : Prop :=
  ∀ p, (news p).isSome = true → (t.fileAt p).isSome = true

theorem hasFilesFor_nothing (t : Tree) : t.HasFilesFor .nothing :=
  fun _ h => absurd h (by simp [News.nothing])

theorem overwrite_nothing (t : Tree) : t.overwrite .nothing = t := by
  simp [overwrite, News.nothing]

variable {t : Tree} {news : News}

theorem HasFilesFor.add (h : t.HasFilesFor news) {p : Path} {held : Contents}
    (hp : t.fileAt p = some held) (contents : Contents) : t.HasFilesFor (news.add p contents) := by
  intro q hq
  by_cases hqp : q = p
  · rw [hqp, hp]
    rfl
  · rw [News.add, if_neg hqp] at hq
    exact h q hq

/-- There are no new contents for what is no file. -/
theorem HasFilesFor.eq_none (h : t.HasFilesFor news) {p : Path} (hp : t.fileAt p = none) :
    news p = none := by
  refine Option.not_isSome_iff_eq_none.1 fun hsome => ?_
  have hfile := h p hsome
  rw [hp] at hfile
  cases hfile

theorem lookup_overwrite (entries : List (Path × Entry)) (p : Path) :
    (overwrite ⟨entries⟩ news).entries.lookup p =
      (entries.lookup p).map fun old => ((news p).map Entry.file).getD old := by
  induction entries with
  | nil => rfl
  | cons place entries ih =>
      obtain ⟨q, old⟩ := place
      simp only [overwrite, List.map_cons, List.lookup_cons] at ih ⊢
      by_cases hpq : p = q
      · subst hpq
        simp
      · simp only [beq_false_of_ne hpq]
        exact ih

theorem entry?_overwrite (h : t.HasFilesFor news) (p : Path) :
    entry? (t.overwrite news) p = ((news p).map Entry.file).or (t.entry? p) := by
  by_cases hp : p = .top
  · subst hp
    have hnone : news .top = none := h.eq_none (by simp [fileAt])
    simp [hnone]
  · rw [ entry?, if_neg hp, entry?, if_neg hp, lookup_overwrite]
    cases hnews : news p with
    | none => simp
    | some contents =>
        have hfile := h p (by simp [hnews])
        obtain ⟨held, hheld⟩ := Option.isSome_iff_exists.1 hfile
        have hentry := fileAt_eq_some.1 hheld
        rw [ entry?, if_neg hp] at hentry
        simp [hentry]

theorem fileAt_overwrite (h : t.HasFilesFor news) (p : Path) :
    (t.overwrite news).fileAt p = (news p).or (t.fileAt p) := by
  unfold fileAt
  rw [entry?_overwrite h]
  cases news p <;> rfl

/-- What is no file is as it was. -/
theorem entry?_overwrite_of_fileAt (h : t.HasFilesFor news) {p : Path} (hp : t.fileAt p = none) :
    entry? (t.overwrite news) p = t.entry? p := by
  rw [entry?_overwrite h, h.eq_none hp]
  rfl

/-! ## Paths in a tree with new contents -/

theorem walk_overwrite (h : t.HasFilesFor news) (links : Nat) (here : Path) (names : List Text) :
    (t.overwrite news).walk links here names =
      (t.walk links here names).map (Arrival.renewed news) := by
  have hsame {p : Path} {entry : Option Entry} (hentry : t.entry? p = entry)
      (hfile : ∀ contents, entry ≠ some (.file contents)) :
      entry? (t.overwrite news) p = entry := by
    rw [entry?_overwrite_of_fileAt h, hentry]
    unfold fileAt
    rw [hentry]
    split
    · next contents => exact absurd rfl (hfile contents)
    · rfl
  fun_induction walk t links here names with
  | case1 => rw [walk]; rfl
  | case2 links here name others hstays ih => rw [walk_of_stays hstays, ih]
  | case3 links here others _ ih => rw [walk_up, ih]
  | case4 links here name others hstays hup hlong =>
      rw [walk_of_long ⟨by simpa using hstays, hup⟩ hlong]
      rfl
  | case5 links here name others hstays hup hlong hentry hend
  | case6 links here name others hstays hup hlong hentry hend =>
      rw [walk_of_short ⟨by simpa using hstays, hup⟩ (Nat.le_of_not_lt hlong),
        hsame hentry (by simp)]
      simp only [hend]
      rfl
  | case7 links here name others hstays hup hlong hentry ih =>
      rw [walk_of_short ⟨by simpa using hstays, hup⟩ (Nat.le_of_not_lt hlong),
        hsame hentry (by simp)]
      exact ih
  | case8 links here name others hstays hup hlong contents hentry hend
  | case9 links here name others hstays hup hlong contents hentry hend =>
      rw [walk_of_short ⟨by simpa using hstays, hup⟩ (Nat.le_of_not_lt hlong),
        entry?_overwrite h, hentry]
      cases hnews : news (here.child name) <;> simp [hend, Except.map, Arrival.renewed, hnews]
  | case10 here name others hstays hup hlong target hentry =>
      rw [walk_of_short ⟨by simpa using hstays, hup⟩ (Nat.le_of_not_lt hlong),
        hsame hentry (by simp)]
      rfl
  | case11 here name others hstays hup hlong target hentry links ih =>
      rw [walk_of_short ⟨by simpa using hstays, hup⟩ (Nat.le_of_not_lt hlong),
        hsame hentry (by simp)]
      exact ih

theorem look_overwrite (h : t.HasFilesFor news) (p : Path) :
    (t.overwrite news).look p = (t.look p).map (Arrival.renewed news) := by
  unfold look
  split
  · rfl
  · exact walk_overwrite h _ _ _

private theorem count_links (entries : List (Path × Entry)) {p : Path} (hp : news p = none) :
    (overwrite ⟨entries⟩ news).links.count p = (Tree.links ⟨entries⟩).count p := by
  induction entries with
  | nil => rfl
  | cons place entries ih =>
      obtain ⟨q, old⟩ := place
      simp only [links, overwrite, List.map_cons, List.filterMap_cons] at ih ⊢
      by_cases hqp : q = p
      · subst hqp
        simp only [hp, Option.map_none, Option.getD_none]
        cases old <;> simpa using ih
      · cases news q <;> cases old <;> simpa [hqp] using ih

theorem entry?_overwrite_link_iff (h : t.HasFilesFor news) (p : Path) (target : Text) :
    entry? (t.overwrite news) p = some (.link target) ↔ t.entry? p = some (.link target) := by
  rw [entry?_overwrite h]
  cases hnews : news p with
  | none => rfl
  | some contents =>
      obtain ⟨held, hheld⟩ := Option.isSome_iff_exists.1 (h p (by simp [hnews]))
      simp [fileAt_eq_some.1 hheld]

theorem resolve_overwrite (h : t.HasFilesFor news) (p : Path) :
    (t.overwrite news).resolve p = t.resolve p := by
  have hfollow : (t.overwrite news).follow (t.overwrite news).links .top p.names =
      t.follow t.links .top p.names := by
    refine follow_congr (entry?_overwrite_link_iff h) fun p target hentry =>
      count_links t.entries (h.eq_none ?_)
    simp [fileAt, hentry]
  unfold resolve
  rw [hfollow]
  cases t.follow t.links .top p.names with
  | plain path => rfl
  | circle names =>
      simp only [look_overwrite h]
      cases t.look (Path.collapse (names.filter fun name => !Path.staysPut name)) with
      | ok arrival => rfl
      | error obstacle => cases obstacle <;> rfl

/-! ## One more file -/

theorem put_overwrite (h : t.HasFilesFor news) {p : Path} {held : Contents}
    (hp : t.fileAt p = some held) (contents : Contents) :
    (t.overwrite news).put p (.file contents) = t.overwrite (news.add p contents) := by
  have hthere : ((t.overwrite news).entries.lookup p).isSome = true := by
    have htop : p ≠ .top := ne_top_of_entry?_ne (ne_directory_of_file (fileAt_eq_some.1 hp))
    have hentry : ( entry? (t.overwrite news) p).isSome = true := by
      rw [entry?_overwrite h, fileAt_eq_some.1 hp]
      cases news p <;> rfl
    rwa [ entry?, if_neg htop] at hentry
  rw [put, if_pos hthere]
  simp only [overwrite, List.map_map, Tree.mk.injEq]
  refine List.map_congr_left fun place _ => ?_
  simp only [Function.comp_apply, News.add]
  split <;> rfl

/-- Writing over files twice is writing over them once. -/
theorem overwrite_overwrite (t : Tree) (news more : News) :
    (t.overwrite news).overwrite more = t.overwrite fun p => (more p).or (news p) := by
  simp only [overwrite, List.map_map, Tree.mk.injEq]
  refine List.map_congr_left fun place _ => ?_
  simp only [Function.comp_apply]
  cases more place.1 <;> rfl

/-- A file that stands in the way of a walk is written over. -/
theorem write_of_look {p q : Path} {held : Contents} (h : t.look p = .ok (.file q held))
    (contents : Contents) : t.write p contents = .ok (t.put q (.file contents)) := by
  rw [write, h]

/-! ## Directories -/

theorem HasFilesFor.of_addsDirectories {made : Tree} (h : t.HasFilesFor news)
    (hadds : t.AddsDirectories made) : made.HasFilesFor news := by
  intro p hp
  rw [hadds.fileAt]
  exact h p hp

theorem put_directory_overwrite (h : t.HasFilesFor news) {p : Path} (hfree : t.entry? p = none) :
    (t.overwrite news).put p .directory = (t.put p .directory).overwrite news := by
  have hnone : news p = none := h.eq_none (by simp [fileAt, hfree])
  have htop : p ≠ .top := ne_top_of_entry?_ne (ne_directory_of_free hfree)
  rw [ entry?, if_neg htop] at hfree
  have hfree' : (t.overwrite news).entries.lookup p = none := by
    rw [lookup_overwrite, hfree]
    rfl
  rw [put, put, hfree, hfree', if_neg (by decide), if_neg (by decide)]
  simp [overwrite, hnone]

theorem addDirectory_overwrite (h : t.HasFilesFor news) (p : Path) :
    (t.overwrite news).addDirectory p = (t.addDirectory p).map (overwrite · news) := by
  unfold addDirectory
  rw [look_overwrite h]
  rcases hlook : t.look p with obstacle | there | ⟨q, held⟩ | q
  · rfl
  · rfl
  · rfl
  · simp only [Except.map, Arrival.renewed]
    rw [put_directory_overwrite h (found_of_look hlook).2]

/-- Whether directories are made before or after files are written over makes no difference. -/
theorem addDirectories_overwrite (h : t.HasFilesFor news) (p : Path) :
    (t.overwrite news).addDirectories p =
      ((t.addDirectories p).1, (t.addDirectories p).2.overwrite news) := by
  -- The directories above are made with the same files in the tree.
  have habove {p : Path} {refusal : Option Refusal} {above : Tree}
      (hup : t.addDirectories p = (refusal, above)) : above.HasFilesFor news := by
    have hadds := t.addsDirectories_addDirectories p
    rw [hup] at hadds
    exact h.of_addsDirectories hadds
  fun_induction addDirectories t p with
  | case1 p made hmade =>
      rw [addDirectories, addDirectory_overwrite h, hmade]
      rfl
  | case2 p refusal hrefused hmissing above made hup ih =>
      rw [addDirectories, addDirectory_overwrite h, hrefused]
      simp only [Except.map, dif_pos hmissing, ih, hup]
  | case3 p refusal hrefused hmissing above hup made hmade ih =>
      rw [addDirectories, addDirectory_overwrite h, hrefused]
      simp only [Except.map, dif_pos hmissing, ih, hup, addDirectory_overwrite (habove hup), hmade]
  | case4 p refusal hrefused hmissing above hup again hagain ih =>
      rw [addDirectories, addDirectory_overwrite h, hrefused]
      simp only [Except.map, dif_pos hmissing, ih, hup, addDirectory_overwrite (habove hup), hagain]
  | case5 p refusal hrefused hmissing =>
      rw [addDirectories, addDirectory_overwrite h, hrefused]
      simp only [Except.map, dif_neg hmissing]

end Tree

end BundleHook
