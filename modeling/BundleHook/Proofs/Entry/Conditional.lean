import BundleHook.Proofs.Entry.GuardMarks

/-!
# The conditional of a delegate

A delegate chooses its bundle in a conditional of the preprocessor: the first branch names the
development bundle, the branch behind `#else` asks Stallion. The guard looks for the marks of such a
conditional without a look at the directives between them. This module reads the directives, line by
line, and says when the marks belong to one conditional.

* `Directive`, `directiveAt` — the directives of a text;
* `Own` — the directives that belong to a conditional, groups inside it apart;
* `HookConditional` — one conditional that makes the choice;
* `marks_of_one_conditional` — when the marks that the guard finds are those of one conditional.
-/

namespace BundleHook

open Text Code Code.Pattern Entry

namespace Entry

/-! ## Directives -/

/-- A line that directs a choice between branches of code. -/
inductive Directive where
  | opening
  | elseIf
  | otherwise
  | closing
  deriving DecidableEq, Repr

/-- The words of the directives. -/
def directiveWords : List (String × Directive) :=
  [("#if", .opening), ("#ifdef", .opening), ("#ifndef", .opening), ("#elseif", .elseIf),
    ("#else", .otherwise), ("#endif", .closing)]

/-- The directive whose mark and word begin the text. -/
def directiveOf : Text → Option Directive
  | '#' :: rest =>
    (directiveWords.find? fun entry => entry.1.toList == '#' :: rest.takeWhile isWord).map Prod.snd
  | _ => none

/-- The directive that opens a line at the offset. -/
def directiveAt (t : Text) (i : Nat) : Option Directive :=
  if opensLine t i then directiveOf (t.drop i) else none

/-- The directives that begin between two offsets, the first one included. -/
def directivesBetween (t : Text) (i j : Nat) : List Directive :=
  (List.range' i (j - i)).filterMap (directiveAt t)

/-- How many conditionals are open behind some directives, of `depth` that are open before them;
`none` when all of these are closed on the way. -/
def depthAfter : (depth : Nat) → List Directive → Option Nat
  | depth, [] => some depth
  | depth, .opening :: others => depthAfter (depth + 1) others
  | depth, .closing :: others => if depth ≤ 1 then none else depthAfter (depth - 1) others
  | depth, .elseIf :: others | depth, .otherwise :: others => depthAfter depth others

/-- The directive at `k` belongs to the conditional that the one at `i` opens: between them every
conditional that is opened is closed. -/
structure Own (t : Text) (i k : Nat) (d : Directive) : Prop where
  behind : i < k
  isDirective : directiveAt t k = some d
  even : depthAfter 1 (directivesBetween t (i + 1) k) = some 1

theorem mem_directivesBetween {t : Text} {i j : Nat} {d : Directive} :
    d ∈ directivesBetween t i j ↔ ∃ k, i ≤ k ∧ k < j ∧ directiveAt t k = some d := by
  rw [directivesBetween, List.mem_filterMap]
  refine exists_congr fun k => ?_
  rw [List.mem_range'_1, and_assoc]
  exact and_congr_right fun _ => and_congr_left fun _ => by omega

theorem depthAfter_of_open {directives : List Directive}
    (h : ∀ d ∈ directives, d ≠ .closing) (depth : Nat) :
    depthAfter depth directives = some (depth + directives.count .opening) := by
  induction directives generalizing depth with
  | nil => rfl
  | cons d others ih =>
      obtain ⟨hd, hothers⟩ := List.forall_mem_cons.1 h
      cases d with
      | opening =>
          rw [depthAfter, ih hothers, List.count_cons_self]
          congr 1
          omega
      | closing => exact absurd rfl hd
      | elseIf | otherwise =>
          rw [depthAfter, ih hothers, List.count_cons_of_ne (by decide)]

/-- Where nothing closes a conditional, depth is kept exactly when nothing opens one. -/
theorem depthAfter_eq_some_iff {directives : List Directive}
    (h : ∀ d ∈ directives, d ≠ .closing) :
    depthAfter 1 directives = some 1 ↔ ∀ d ∈ directives, d ≠ .opening := by
  rw [depthAfter_of_open h, Option.some.injEq, Nat.add_eq_left, List.count_eq_zero]
  exact ⟨fun hnot d hd heq => hnot (heq ▸ hd), fun hne hmem => hne _ hmem rfl⟩

/-! ## Words of directives -/

/-- A directive is read off its word, which ends where no word character follows. -/
theorem directiveOf_append {w : Text} (hw : ∀ c ∈ w, isWord c = true) {c : Char}
    (hc : isWord c = false) (rest : Text) :
    directiveOf ('#' :: (w ++ c :: rest)) =
      (directiveWords.find? fun entry => entry.1.toList == '#' :: w).map Prod.snd := by
  rw [directiveOf, List.takeWhile_append_of_pos hw, List.takeWhile_cons_of_neg (by simp [hc]),
    List.append_nil]

theorem exists_word_of_directiveOf {t : Text} {d : Directive} (h : directiveOf t = some d) :
    ∃ word, (word, d) ∈ directiveWords ∧ word.toList <+: t := by
  unfold directiveOf at h
  split at h
  · next rest =>
    obtain ⟨⟨word, d'⟩, hfound, rfl⟩ := Option.map_eq_some_iff.1 h
    have hword := List.find?_some hfound
    refine ⟨word, List.mem_of_find?_eq_some hfound, ?_⟩
    rw [beq_iff_eq] at hword
    rw [hword]
    exact List.cons_prefix_cons.2 ⟨rfl, List.takeWhile_prefix _⟩
  · cases h

theorem directiveAt_eq_some_iff {t : Text} {k : Nat} {d : Directive} :
    directiveAt t k = some d ↔ opensLine t k = true ∧ directiveOf (t.drop k) = some d := by
  rw [directiveAt]
  split
  · next h => simp [h]
  · next h => simp [h]

theorem head_of_directiveAt {t : Text} {k : Nat} {d : Directive} (h : directiveAt t k = some d) :
    t[k]? = some '#' := by
  obtain ⟨-, hdirective⟩ := directiveAt_eq_some_iff.1 h
  rw [← List.head?_drop]
  unfold directiveOf at hdirective
  split at hdirective
  · next hdrop => rw [hdrop, List.head?_cons]
  · cases hdirective

theorem endMark_of_directiveAt {t : Text} {k : Nat} (h : directiveAt t k = some .closing) :
    endMark <+: t.drop k := by
  have hclosing : ∀ entry ∈ directiveWords, entry.2 = .closing → entry.1.toList = endMark := by
    decide
  obtain ⟨word, hmem, hpresent⟩ := exists_word_of_directiveOf (directiveAt_eq_some_iff.1 h).2
  rwa [← hclosing _ hmem rfl]

theorem opens_one (accepts : Char → Bool) :
    Opens (fun t => ∃ c rest, t = c :: rest ∧ accepts c = true) (one accepts) := by
  intro before here q hmatches
  cases hmatches with
  | one head accepted => exact ⟨_, _, head, accepted⟩

theorem directiveOf_opening {t : Text} {opening : Span}
    (h : (debugWords ++ edge).MatchesAt t opening) :
    directiveOf (t.drop opening.start) = some .opening := by
  have hopens : Opens (fun t => directiveOf t = some .opening) (debugWords ++ edge) := by
    refine Opens.both (Opens.both ?_)
    intro before here q hmatches
    obtain ⟨p, hhead, hgap⟩ := matches_both_iff.1 hmatches
    obtain ⟨r, hif, hdef⟩ := matches_both_iff.1 hhead
    obtain ⟨rest, rfl, rfl⟩ := matches_text_iff.1 hif
    rcases matches_maybe_iff.1 hdef with hdef | rfl
    · obtain ⟨rest, rfl, rfl⟩ := matches_text_iff.1 hdef
      obtain ⟨c, rest, rfl, hc⟩ := (opens_one isIndent).both _ _ _ hgap
      exact directiveOf_append (w := "ifdef".toList) (by decide)
        (isWord_eq_false_of_isBlank (isBlank_of_isIndent c hc)) rest
    · obtain ⟨c, rest, rfl, hc⟩ := (opens_one isIndent).both _ _ _ hgap
      exact directiveOf_append (w := "if".toList) (by decide)
        (isWord_eq_false_of_isBlank (isBlank_of_isIndent c hc)) rest
  exact hopens.of_matchesAt h

theorem directiveOf_answer {t : Text} {answer : Span} (h : elseAnswer.MatchesAt t answer) :
    directiveOf (t.drop answer.start) = some .otherwise := by
  have hopens : Opens (fun t => directiveOf t = some .otherwise) elseAnswer := by
    intro before here q hmatches
    obtain ⟨p, helse, hrest⟩ := matches_both_iff.1 hmatches
    obtain ⟨rest, rfl, rfl⟩ := matches_text_iff.1 helse
    obtain ⟨c, rest, rfl, hc⟩ := (opens_one isBlank).both.both _ _ _ hrest
    exact directiveOf_append (w := "else".toList) (by decide) (isWord_eq_false_of_isBlank hc) rest
  exact hopens.of_matchesAt h

/-! ## The conditional of the hook -/

/-- One conditional on the debug flag that makes the choice: its first branch holds the name of the
development bundle, and the branch behind its own `#else` begins with the answer of Stallion. -/
structure HookConditional (t : Text) (opening name answer : Span) : Prop where
  opens : (debugWords ++ edge).MatchesAt t opening
  isDirective : directiveAt t opening.start = some .opening
  names : bundleName.MatchesAt t name
  behindOpening : opening.stop ≤ name.start
  inFirstBranch : ∀ k d, Own t opening.start k d → d = .elseIf ∨ d = .otherwise → name.stop ≤ k
  answers : elseAnswer.MatchesAt t answer
  own : Own t opening.start answer.start .otherwise
  first : ∀ k, Own t opening.start k .otherwise → answer.start ≤ k

/-- The marks stand on lines of directives, with no directive between them but `#elseif` behind the
name. -/
structure IsUnbroken (t : Text) (opening name answer : Span) : Prop where
  openingLine : opensLine t opening.start = true
  answerLine : opensLine t answer.start = true
  between : ∀ k d, opening.start < k → k < answer.start → directiveAt t k = some d →
    d = .elseIf ∧ name.stop ≤ k

/-- No mark of a directive stands in the opening behind its first character. -/
theorem ne_hash_of_opening {t : Text} {opening : Span}
    (h : (debugWords ++ edge).MatchesAt t opening) {k : Nat} (hstart : opening.start < k)
    (hstop : k < opening.stop) : t[k]? ≠ some '#' := by
  obtain ⟨start, stop⟩ := opening
  obtain ⟨middle, hwords, hedge⟩ := matchesAt_both h
  obtain rfl : stop = middle := (matchesAt_edge_iff.1 hedge).1
  have hsplit : (word "#if" ++ (maybe (word "def") ++ (indentGap ++ word "DEBUG"))).MatchesAt t
      ⟨start, stop⟩ := by
    simpa only [debugWords, matchesAt_append_assoc] using hwords
  obtain ⟨behind, hif, hrest⟩ := matchesAt_both hsplit
  obtain ⟨rfl, hchars⟩ : behind = start + 3 ∧ _ := getElem?_of_matchesAt_text hif
  have hindent : indentGap.TakesOnly (· ≠ '#') := by
    refine ⟨?_, ?_⟩ <;> (rintro c h rfl; revert h; decide)
  have htakes : (maybe (word "def") ++ (indentGap ++ word "DEBUG")).TakesOnly (· ≠ '#') := by
    simp only [TakesOnly.append_iff, TakesOnly.maybe_iff, TakesOnly.word_iff, hindent]
    decide
  intro hmark
  rcases Nat.lt_or_ge k (start + 3) with hlt | hge
  · obtain ⟨n, rfl⟩ : ∃ n, k = start + n + 1 := Nat.exists_eq_add_of_lt hstart
    have hn : ∀ n < 2, "#if".toList[n + 1]? ≠ some '#' := by decide
    rw [Nat.add_assoc, hchars (n + 1) (by show n + 1 < 3; omega)] at hmark
    exact hn n (by omega) hmark
  · exact htakes.mem_slice hrest '#' (mem_slice_of_getElem? hmark hge hstop) rfl

/-- No mark of a directive stands in the name of the bundle. -/
theorem ne_hash_of_name {t : Text} {name : Span} (h : bundleName.MatchesAt t name) {k : Nat}
    (hstart : name.start ≤ k) (hstop : k < name.stop) : t[k]? ≠ some '#' := by
  have htakes : bundleName.TakesOnly (· ≠ '#') := by
    rw [bundleName, TakesOnly.word_iff]
    decide
  exact fun hmark => htakes.mem_slice h '#' (mem_slice_of_getElem? hmark hstart hstop) rfl

/-- The end of a conditional begins with the mark of a directive. -/
theorem head_of_endMark {t : Text} {k : Nat} (h : endMark <+: t.drop k) : t[k]? = some '#' := by
  obtain ⟨rest, hrest⟩ := h
  rw [← List.head?_drop, ← hrest]
  rfl

/-- Where the marks of the guard stand, no end of a conditional begins between them. -/
theorem GuardMarks.unended {t : Text} {opening name answer : Span}
    (h : GuardMarks t opening name answer) : Unended t opening.stop answer.start where
  le := by
    have := h.beforeName.le
    have := h.names.1
    have := h.beforeAnswer.le
    omega
  outside k hstart hstop hend := by
    rcases Nat.lt_or_ge k name.start with hname | hname
    · exact h.beforeName.outside k hstart hname hend
    · rcases Nat.lt_or_ge k name.stop with hinside | hbehind
      · exact ne_hash_of_name h.names hname hinside (head_of_endMark hend)
      · exact h.beforeAnswer.outside k hbehind hstop hend

theorem ne_closing_of_unended {t : Text} {opening : Span} {stop : Nat}
    (hopens : (debugWords ++ edge).MatchesAt t opening) (h : Unended t opening.stop stop) :
    ∀ d ∈ directivesBetween t (opening.start + 1) stop, d ≠ .closing := by
  rintro d hd rfl
  obtain ⟨k, hstart, hstop, hk⟩ := mem_directivesBetween.1 hd
  rcases Nat.lt_or_ge k opening.stop with hinside | hbehind
  · exact ne_hash_of_opening hopens hstart hinside (head_of_directiveAt hk)
  · exact h.outside k hbehind hstop (endMark_of_directiveAt hk)

/-- The marks of the guard are those of one conditional exactly when no directive parts them. -/
theorem GuardMarks.hookConditional_iff {t : Text} {opening name answer : Span}
    (h : GuardMarks t opening name answer) :
    HookConditional t opening name answer ↔ IsUnbroken t opening name answer := by
  have hclosing := ne_closing_of_unended h.opens h.unended
  constructor
  · intro hc
    have hopening := (depthAfter_eq_some_iff hclosing).1 hc.own.even
    refine ⟨(directiveAt_eq_some_iff.1 hc.isDirective).1,
      (directiveAt_eq_some_iff.1 hc.own.isDirective).1, fun k d hstart hstop hk => ?_⟩
    have hmem : d ∈ directivesBetween t (opening.start + 1) answer.start :=
      mem_directivesBetween.2 ⟨k, hstart, hstop, hk⟩
    -- nothing opens or closes before `k`, so the directive there is one of the conditional's own
    have hbefore : ∀ d' ∈ directivesBetween t (opening.start + 1) k,
        d' ∈ directivesBetween t (opening.start + 1) answer.start := by
      intro d' hd'
      obtain ⟨m, hm, hlt, hdirective⟩ := mem_directivesBetween.1 hd'
      exact mem_directivesBetween.2 ⟨m, hm, Nat.lt_trans hlt hstop, hdirective⟩
    have hown : Own t opening.start k d := ⟨hstart, hk,
      (depthAfter_eq_some_iff fun d' hd' => hclosing d' (hbefore d' hd')).2
        fun d' hd' => hopening d' (hbefore d' hd')⟩
    cases d with
    | opening => exact absurd rfl (hopening _ hmem)
    | closing => exact absurd rfl (hclosing _ hmem)
    | otherwise => exact absurd (hc.first k hown) (Nat.not_le_of_lt hstop)
    | elseIf => exact ⟨rfl, hc.inFirstBranch k _ hown (.inl rfl)⟩
  · intro hu
    have hbehind : opening.start < answer.start := by
      have := h.opens.1
      have := h.beforeName.le
      have := (getElem?_of_matchesAt_text h.names).1
      have : 0 < ".expo/.virtual-metro-entry".toList.length := by decide
      have := h.beforeAnswer.le
      omega
    have hopening : ∀ d ∈ directivesBetween t (opening.start + 1) answer.start, d ≠ .opening := by
      rintro d hd rfl
      obtain ⟨k, hstart, hstop, hk⟩ := mem_directivesBetween.1 hd
      cases (hu.between k _ hstart hstop hk).1
    exact
      { opens := h.opens
        isDirective := directiveAt_eq_some_iff.2 ⟨hu.openingLine, directiveOf_opening h.opens⟩
        names := h.names
        behindOpening := h.beforeName.le
        inFirstBranch := fun k d hown _ => by
          rcases Nat.lt_or_ge k answer.start with hlt | hge
          · exact (hu.between k d hown.behind hlt hown.isDirective).2
          · exact Nat.le_trans h.beforeAnswer.le hge
        answers := h.answers
        own := ⟨hbehind, directiveAt_eq_some_iff.2 ⟨hu.answerLine, directiveOf_answer h.answers⟩,
          (depthAfter_eq_some_iff hclosing).2 hopening⟩
        first := fun k hown => Nat.le_of_not_lt fun hlt => by
          cases (hu.between k _ hown.behind hlt hown.isDirective).1 }

/-- The guard finds the marks of a conditional exactly when no end of one begins between them. -/
theorem HookConditional.guardMarks_iff {t : Text} {opening name answer : Span}
    (h : HookConditional t opening name answer) :
    GuardMarks t opening name answer ↔ Unended t opening.stop answer.start := by
  refine ⟨GuardMarks.unended, fun hunended => ?_⟩
  have hname : name.stop ≤ answer.start := h.inFirstBranch _ _ h.own (.inr rfl)
  have hspan := h.names.1
  exact ⟨h.opens, h.names, h.answers,
    ⟨h.behindOpening, fun k hstart hstop => hunended.outside k hstart (by omega)⟩,
    ⟨hname, fun k hstart hstop => hunended.outside k (by have := h.behindOpening; omega) hstop⟩⟩

end Entry

/-- Where the guard finds its marks, they belong to one conditional exactly when no directive parts
them; a conditional whose marks it does not find has an `#endif` between them. So a text in which
the guard sees the hook has the conditional of a hook exactly when it has one of either kind. -/
theorem marks_of_one_conditional (t : Text) :
    (Platform.ios.isInstalled t = true ↔
      ∃ opening name answer, GuardMarks t opening name answer) ∧
    (∀ opening name answer, GuardMarks t opening name answer →
      (HookConditional t opening name answer ↔ IsUnbroken t opening name answer)) ∧
    (∀ opening name answer, HookConditional t opening name answer →
      (GuardMarks t opening name answer ↔ Unended t opening.stop answer.start)) ∧
    ((Platform.ios.isInstalled t = true →
        ∃ opening name answer, HookConditional t opening name answer) ↔
      (Platform.ios.isInstalled t = true →
        (∃ opening name answer,
          GuardMarks t opening name answer ∧ IsUnbroken t opening name answer) ∨
        ∃ opening name answer,
          HookConditional t opening name answer ∧ ¬Unended t opening.stop answer.start)) := by
  refine ⟨isInstalled_ios_iff, fun _ _ _ => GuardMarks.hookConditional_iff,
    fun _ _ _ => HookConditional.guardMarks_iff, imp_congr_right fun _ => ⟨?_, ?_⟩⟩
  · rintro ⟨opening, name, answer, h⟩
    by_cases hunended : Unended t opening.stop answer.start
    · have hmarks := h.guardMarks_iff.2 hunended
      exact .inl ⟨opening, name, answer, hmarks, hmarks.hookConditional_iff.1 h⟩
    · exact .inr ⟨opening, name, answer, h, hunended⟩
  · rintro (⟨opening, name, answer, hmarks, hunbroken⟩ | ⟨opening, name, answer, h, -⟩)
    · exact ⟨opening, name, answer, hmarks.hookConditional_iff.2 hunbroken⟩
    · exact ⟨opening, name, answer, h⟩

/-- A conditional with both branches. -/
def plainConditional : Text := block
  ["#if DEBUG", "return \".expo/.virtual-metro-entry\"", "#else",
    "return StallionModule.getBundleURL()", "#endif", ""]

theorem marks_of_one_conditional_plainConditional :
    GuardMarks plainConditional ⟨0, 9⟩ ⟨18, 44⟩ ⟨46, 88⟩ ∧
      HookConditional plainConditional ⟨0, 9⟩ ⟨18, 44⟩ ⟨46, 88⟩ := by
  have hfacts : (debugWords ++ edge).search plainConditional = some ⟨0, 9⟩ ∧
      bundleName.search plainConditional = some ⟨18, 44⟩ ∧
      elseAnswer.search plainConditional = some ⟨46, 88⟩ ∧
      (∀ k < 46, ¬endMark <+: plainConditional.drop k) ∧
      opensLine plainConditional 0 = true ∧ opensLine plainConditional 46 = true ∧
      ∀ k < 46, 0 < k → directiveAt plainConditional k = none := by
    decide
  obtain ⟨hguard, hname, helse, hend, hguardLine, helseLine, hnone⟩ := hfacts
  have hmarks : GuardMarks plainConditional ⟨0, 9⟩ ⟨18, 44⟩ ⟨46, 88⟩ :=
    ⟨matchesAt_of_search hguard, matchesAt_of_search hname, matchesAt_of_search helse,
      ⟨by decide, fun k _ hk => hend k (Nat.lt_trans hk (by decide))⟩,
      ⟨by decide, fun k _ hk => hend k hk⟩⟩
  refine ⟨hmarks, ((marks_of_one_conditional plainConditional).2.1 _ _ _ hmarks).2
    ⟨hguardLine, helseLine, fun k d hstart hstop hk => ?_⟩⟩
  rw [hnone k hstop hstart] at hk
  cases hk

/-- The name of the bundle stands in the outer conditional, the answer of Stallion in the inner
one. -/
def nestedConditional : Text := block
  ["#if DEBUG", ".expo/.virtual-metro-entry", "#if X", "#else",
    "return StallionModule.getBundleURL()", "#endif", "#endif", ""]

/-- The guard crosses from one conditional into another. -/
theorem marks_of_two_conditionals :
    Platform.ios.isInstalled nestedConditional = true ∧
      ¬∃ opening name answer, HookConditional nestedConditional opening name answer := by
  have hfacts : Platform.ios.isInstalled nestedConditional = true ∧
      (∀ k < nestedConditional.length,
        directiveAt nestedConditional k = some .opening → k = 0 ∨ k = 37) ∧
      (∀ k < nestedConditional.length,
        directiveAt nestedConditional k = some .otherwise → k = 43) ∧
      (∀ k < nestedConditional.length, nestedConditional[k]? = some '.' →
        nestedConditional[k + 1]? = some 'e' → k = 10) ∧
      depthAfter 1 (directivesBetween nestedConditional 1 43) = some 2 := by
    decide
  obtain ⟨hinstalled, hopening, hotherwise, hname, hdepth⟩ := hfacts
  refine ⟨hinstalled, ?_⟩
  rintro ⟨opening, name, answer, h⟩
  have hlength {k : Nat} {c : Char} (hc : nestedConditional[k]? = some c) :
      k < nestedConditional.length := (List.getElem?_eq_some_iff.1 hc).1
  have hnameStart : name.start = 10 := by
    obtain ⟨-, hchars⟩ := getElem?_of_matchesAt_text h.names
    have hdot : nestedConditional[name.start]? = some '.' := hchars 0 (by decide)
    exact hname _ (hlength hdot) hdot (hchars 1 (by decide))
  have hanswerStart : answer.start = 43 :=
    hotherwise _ (hlength (head_of_directiveAt h.own.isDirective)) h.own.isDirective
  have hstart : opening.start = 0 := by
    have hle := h.behindOpening
    have hspan := h.opens.1
    rcases hopening _ (hlength (head_of_directiveAt h.isDirective)) h.isDirective with h0 | h37
    · exact h0
    · omega
  have heven := h.own.even
  rw [hstart, hanswerStart, hdepth] at heven
  cases heven

end BundleHook
