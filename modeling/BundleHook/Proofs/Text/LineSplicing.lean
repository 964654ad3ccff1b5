import BundleHook.Proofs.Text.Parts
import BundleHook.Text.Lines

/-!
# Lines of a spliced text

The lines of a text are its parts between line feeds. Where two texts meet, the last line of the one
and the first line of the other become one line; all other lines stay as they are.
-/

namespace BundleHook.Text

theorem not_mem_of_mem_splitOn {mark : Char} {part t : Text} (h : part ∈ splitOn mark t) :
    mark ∉ part := by
  induction t generalizing part with
  | nil =>
      obtain rfl := List.mem_singleton.1 h
      exact List.not_mem_nil
  | cons c t ih =>
      rw [splitOn] at h
      split at h
      · rcases List.mem_cons.1 h with rfl | h
        · exact List.not_mem_nil
        · exact ih h
      · next hc =>
        cases hsplit : splitOn mark t with
        | nil => exact absurd hsplit (splitOn_ne_nil mark t)
        | cons first others =>
            rw [hsplit] at h ih
            rcases List.mem_cons.1 h with rfl | h
            · simp [Ne.symm hc, ih List.mem_cons_self]
            · exact ih (List.mem_cons_of_mem _ h)

/-- What stands behind the last line feed. -/
def lastLine (t : Text) : Text := (splitOn '\n' t).getLast?.getD []

/-- What stands in front of the first line feed. -/
def firstLine (t : Text) : Text := (splitOn '\n' t).head?.getD []

/-- A line may begin behind the text. -/
def EndsLine (t : Text) : Prop := t = [] ∨ t.getLast? = some '\n'

/-- A line may end in front of the text. -/
def BreaksLine (t : Text) : Prop := t = [] ∨ t.head? = some '\n'

theorem lines_eq_init (t : Text) :
    splitOn '\n' t = (splitOn '\n' t).dropLast ++ [lastLine t] := by
  rw [lastLine, List.getLast?_eq_some_getLast (splitOn_ne_nil '\n' t), Option.getD_some,
    List.dropLast_concat_getLast]

theorem lines_eq_tail (t : Text) : splitOn '\n' t = firstLine t :: (splitOn '\n' t).tail := by
  rw [firstLine, List.head?_eq_some_head (splitOn_ne_nil '\n' t), Option.getD_some,
    List.cons_head_tail]

theorem lastLine_mem (t : Text) : lastLine t ∈ splitOn '\n' t := by
  rw [lines_eq_init t]
  exact List.mem_concat_self

theorem firstLine_mem (t : Text) : firstLine t ∈ splitOn '\n' t := by
  rw [lines_eq_tail t]
  exact List.mem_cons_self

theorem lastLine_of_not_mem {t : Text} (h : '\n' ∉ t) : lastLine t = t := by
  rw [lastLine, splitOn_of_not_mem h]
  rfl

theorem firstLine_of_not_mem {t : Text} (h : '\n' ∉ t) : firstLine t = t := by
  rw [firstLine, splitOn_of_not_mem h]
  rfl

/-! ## Two texts -/

theorem lines_append_of_eq {a : Text} {init : List Text} {last : Text}
    (h : splitOn '\n' a = init ++ [last]) (b : Text) :
    splitOn '\n' (a ++ b) = init ++ (last ++ firstLine b) :: (splitOn '\n' b).tail := by
  induction a generalizing init last with
  | nil =>
      obtain ⟨rfl, rfl⟩ : init = [] ∧ last = [] := by
        rcases List.append_eq_singleton_iff.1 h.symm with ⟨hinit, hlast⟩ | ⟨-, hlast⟩
        · exact ⟨hinit, (List.cons.inj hlast).1⟩
        · cases hlast
      exact lines_eq_tail b
  | cons c a ih =>
      rw [splitOn] at h
      rw [List.cons_append, splitOn]
      split at h
      · next hc =>
        cases init with
        | nil => exact absurd (List.cons.inj h).2 (splitOn_ne_nil '\n' a)
        | cons first init =>
            obtain ⟨hfirst, hinit⟩ := List.cons.inj h
            rw [if_pos hc, ih hinit, hfirst, List.cons_append]
      · next hc =>
        rw [if_neg hc]
        obtain ⟨part, parts, hsplit⟩ := List.exists_cons_of_ne_nil (splitOn_ne_nil '\n' a)
        rw [hsplit] at h
        cases init with
        | nil =>
            obtain ⟨rfl, rfl⟩ := List.cons.inj h
            have hsingle : splitOn '\n' a = [] ++ [part] := hsplit
            rw [ih hsingle]
            rfl
        | cons first init =>
            obtain ⟨rfl, rfl⟩ := List.cons.inj h
            have hmore : splitOn '\n' a = part :: init ++ [last] := hsplit
            rw [ih hmore]
            rfl

/-- A text in front of another one keeps all its lines but the last one. -/
theorem lines_append (a b : Text) :
    splitOn '\n' (a ++ b) =
      (splitOn '\n' a).dropLast ++ (lastLine a ++ firstLine b) :: (splitOn '\n' b).tail :=
  lines_append_of_eq (lines_eq_init a) b

/-- A text with a line feed has a line behind its first one. -/
theorem tail_lines_ne_nil {t : Text} (h : '\n' ∈ t) : (splitOn '\n' t).tail ≠ [] := by
  intro hnil
  have hline := not_mem_of_mem_splitOn (firstLine_mem t)
  have hjoin := join_splitOn '\n' t
  have hone := lines_eq_tail t
  rw [hnil] at hone
  rw [hone] at hjoin
  change firstLine t = t at hjoin
  rw [hjoin] at hline
  exact hline h

theorem lastLine_append (a b : Text) :
    lastLine (a ++ b) = if '\n' ∈ b then lastLine b else lastLine a ++ b := by
  split
  · next hb =>
    obtain ⟨line, hline⟩ : ∃ line, (splitOn '\n' b).tail.getLast? = some line :=
      ⟨_, List.getLast?_eq_some_getLast (tail_lines_ne_nil hb)⟩
    have hlast : lastLine b = line := by
      rw [lastLine, lines_eq_tail b, List.getLast?_cons, hline]
      rfl
    rw [hlast, lastLine, lines_append, List.getLast?_append, List.getLast?_cons, hline]
    rfl
  · next hb =>
    rw [lastLine, lines_append, splitOn_of_not_mem hb, firstLine_of_not_mem hb,
      List.tail_cons, List.getLast?_concat]
    rfl

theorem firstLine_append (a b : Text) :
    firstLine (a ++ b) = if '\n' ∈ a then firstLine a else a ++ firstLine b := by
  induction a with
  | nil => simp
  | cons c a ih =>
      by_cases hc : c = '\n'
      · simp [firstLine, splitOn, hc]
      · have hcons (t : Text) : firstLine (c :: t) = c :: firstLine t := by
          rw [firstLine, splitOn, if_neg hc, lines_eq_tail t]
          rfl
        rw [List.cons_append, hcons, hcons, ih]
        simp only [List.mem_cons, Ne.symm hc, false_or]
        split <;> rfl

theorem firstLine_append_firstLine (a b : Text) :
    firstLine (a ++ firstLine b) = firstLine (a ++ b) := by
  rw [firstLine_append, firstLine_append,
    firstLine_of_not_mem (not_mem_of_mem_splitOn (firstLine_mem b))]

theorem endsLine_take_startOfLine (t : Text) (index : Nat) :
    EndsLine (t.take (startOfLine t index)) := by
  -- The line up to the offset is the end of the text before it.
  have hsplit : ((t.take index).reverse.dropWhile (· != '\n')).reverse =
      t.take (startOfLine t index) := by
    have hwhole : ((t.take index).reverse.dropWhile (· != '\n')).reverse ++
        ((t.take index).reverse.takeWhile (· != '\n')).reverse = t.take index := by
      rw [← List.reverse_append, List.takeWhile_append_dropWhile, List.reverse_reverse]
    have hlength := congrArg List.length hwhole
    rw [List.length_append, @List.length_reverse _ (List.takeWhile _ _)] at hlength
    have hstart : startOfLine t index =
        ((t.take index).reverse.dropWhile (· != '\n')).reverse.length := by
      simp only [startOfLine]
      omega
    have htake := congrArg (List.take (startOfLine t index)) hwhole
    rw [List.take_take, Nat.min_eq_left (startOfLine_le t index)] at htake
    rw [← htake, hstart, List.take_left]
  rw [← hsplit]
  have hhead := List.head?_dropWhile_not (· != '\n') (t.take index).reverse
  cases hrest : (t.take index).reverse.dropWhile (· != '\n') with
  | nil => exact .inl rfl
  | cons c rest =>
      rw [hrest] at hhead
      have hc : c = '\n' := by simpa using hhead
      exact .inr (by simp [hc])

theorem not_mem_slice_startOfLine (t : Text) (index : Nat) :
    '\n' ∉ slice t (startOfLine t index) index := by
  have hline : slice t (startOfLine t index) index =
      ((t.take index).reverse.takeWhile (· != '\n')).reverse := by
    have hfront := List.prefix_iff_eq_take.1
      (List.takeWhile_prefix (l := (t.take index).reverse) (· != '\n'))
    rw [List.take_reverse] at hfront
    rw [hfront, List.reverse_reverse]
    rfl
  intro hmem
  rw [hline, List.mem_reverse] at hmem
  exact absurd (List.all_eq_true.1 List.all_takeWhile _ hmem) (by decide)

theorem lastLine_of_endsLine {t : Text} (h : EndsLine t) : lastLine t = [] := by
  rcases h with rfl | h
  · rfl
  · obtain ⟨init, rfl⟩ := List.getLast?_eq_some_iff.1 h
    rw [lastLine_append, if_pos (List.mem_singleton.2 rfl)]
    rfl

theorem firstLine_of_breaksLine {t : Text} (h : BreaksLine t) : firstLine t = [] := by
  rcases h with rfl | h
  · rfl
  · obtain ⟨rest, rfl⟩ := List.head?_eq_some_iff.1 h
    rw [firstLine, splitOn, if_pos rfl]
    rfl

theorem lines_append_of_endsLine {a : Text} (h : EndsLine a) (b : Text) :
    splitOn '\n' (a ++ b) = (splitOn '\n' a).dropLast ++ splitOn '\n' b := by
  rw [lines_append, lastLine_of_endsLine h, List.nil_append, ← lines_eq_tail]

theorem lastLine_suffix (t : Text) : lastLine t <:+ t := by
  have hjoin := join_splitOn '\n' t
  rw [lines_eq_init t] at hjoin
  by_cases hfront : (splitOn '\n' t).dropLast = []
  · rw [hfront] at hjoin
    exact ⟨[], hjoin⟩
  · rw [join_append hfront (List.cons_ne_nil _ _)] at hjoin
    exact ⟨_, hjoin⟩

/-! ## Three texts -/

/-- The part of a text between two others meets the last line of the one and the first line of the
other. -/
theorem lines_between (a m c : Text) :
    splitOn '\n' (a ++ m ++ c) =
      (splitOn '\n' a).dropLast ++ splitOn '\n' (lastLine a ++ m ++ firstLine c) ++
        (splitOn '\n' c).tail := by
  have hlast := not_mem_of_mem_splitOn (lastLine_mem a)
  have hfirst := not_mem_of_mem_splitOn (firstLine_mem c)
  have hfront : splitOn '\n' (a ++ m) =
      (splitOn '\n' a).dropLast ++ splitOn '\n' (lastLine a ++ m) := by
    rw [lines_append a, lines_append (lastLine a), splitOn_of_not_mem hlast,
      lastLine_of_not_mem hlast]
    rfl
  have hnear : lastLine (a ++ m) = lastLine (lastLine a ++ m) := by
    rw [lastLine_append, lastLine_append, lastLine_of_not_mem hlast]
  rw [lines_append (a ++ m), lines_append (lastLine a ++ m), hfront, hnear,
    splitOn_of_not_mem hfirst, firstLine_of_not_mem hfirst,
    List.dropLast_append_of_ne_nil (splitOn_ne_nil '\n' _)]
  simp

theorem mem_lines_between {a line c : Text} (ha : EndsLine a) (hline : '\n' ∉ line)
    (hc : BreaksLine c) : line ∈ splitOn '\n' (a ++ line ++ c) := by
  rw [lines_between, lastLine_of_endsLine ha, firstLine_of_breaksLine hc, List.nil_append,
    List.append_nil, splitOn_of_not_mem hline]
  simp

/-- Every line stands between two breaks. -/
theorem exists_of_mem_lines {line t : Text} (h : line ∈ splitOn '\n' t) :
    ∃ a c, t = a ++ line ++ c ∧ EndsLine a ∧ BreaksLine c := by
  obtain ⟨front, behind, hsplit⟩ := List.append_of_mem h
  have hjoin := join_splitOn '\n' t
  have hbehind : ∃ c, join ['\n'] (line :: behind) = line ++ c ∧ BreaksLine c := by
    by_cases hnil : behind = []
    · exact ⟨[], by rw [hnil, List.append_nil]; rfl, .inl rfl⟩
    · exact ⟨['\n'] ++ join ['\n'] behind, by rw [join_cons hnil, List.append_assoc], .inr rfl⟩
  obtain ⟨c, hc, hbreaks⟩ := hbehind
  rw [hsplit] at hjoin
  by_cases hnil : front = []
  · rw [hnil, List.nil_append, hc] at hjoin
    exact ⟨[], c, hjoin.symm, .inl rfl, hbreaks⟩
  · rw [join_append hnil (List.cons_ne_nil _ _), hc] at hjoin
    exact ⟨join ['\n'] front ++ ['\n'], c, by rw [← hjoin]; simp, .inr List.getLast?_concat,
      hbreaks⟩

/-- A line of a text between two others meets the last line of the one, or it stands behind a line
feed and is a line of the text itself or meets the first line of the other. -/
theorem mem_lines_touched {line a m c : Text}
    (h : line ∈ splitOn '\n' (lastLine a ++ m ++ firstLine c)) :
    line = lastLine a ++ firstLine (m ++ firstLine c) ∨
      '\n' ∈ m ∧ (line ∈ splitOn '\n' m ∨ line = lastLine m ++ firstLine c) := by
  have hlast := not_mem_of_mem_splitOn (lastLine_mem a)
  have hfirst := not_mem_of_mem_splitOn (firstLine_mem c)
  rw [List.append_assoc, lines_append (lastLine a), splitOn_of_not_mem hlast,
    lastLine_of_not_mem hlast] at h
  rcases List.mem_cons.1 h with h | h
  · exact .inl h
  · have hbreak : '\n' ∈ m := by
      refine Decidable.byContradiction fun hm => ?_
      have hnone : '\n' ∉ m ++ firstLine c := by simp [hm, hfirst]
      rw [splitOn_of_not_mem hnone] at h
      cases h
    refine .inr ⟨hbreak, ?_⟩
    have hline := List.mem_of_mem_tail h
    rw [lines_append, splitOn_of_not_mem hfirst, firstLine_of_not_mem hfirst] at hline
    rcases List.mem_append.1 hline with hline | hline
    · exact .inl (List.dropLast_subset _ hline)
    · exact .inr (List.mem_singleton.1 hline)

end BundleHook.Text
