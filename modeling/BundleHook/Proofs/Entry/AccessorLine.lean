import BundleHook.Proofs.Code.Blocks
import BundleHook.Proofs.Entry.ClassBody

/-!
# The hook behind the main module's name

Where a wrapper names its main module the hook goes behind the line on which that declaration ends.
The line may hold more: a brace that closes the block of the declaration, or one that opens another
block. So the hook comes into the innermost block of the declaration exactly when no block has just
one of its ends between the start of the declaration and the end of the line.

* `lineEnded`, `endOfLine` — the line that a hook is put in behind;
* `hook_beside_accessor` — when the hook stands in the innermost block of the declaration.
-/

namespace BundleHook

open Text Code Code.Pattern Entry Entry.MainApplication

namespace Code

/-- The text with a line feed behind `index`, which is added at its end when there is none. -/
def lineEnded (t : Text) (index : Nat) : Text := if '\n' ∈ t.drop index then t else t ++ ['\n']

/-- The offset of the first line feed from `index` on, or the length of the text. -/
def endOfLine (t : Text) (index : Nat) : Nat := index + ((t.drop index).takeWhile (· != '\n')).length

theorem placeBehindLine_eq {t : Text} {index : Nat} (hle : index ≤ t.length) (block indent : Text) :
    placeBehindLine t index block indent =
      (lineEnded t index).take (endOfLine t index + 1) ++
        (['\n'] ++ indented block indent ++ ['\n'] ++
          (lineEnded t index).drop (endOfLine t index + 1)) := by
  have hsplit := List.takeWhile_append_dropWhile (p := (· != '\n')) (l := t.drop index)
  have hlead : '\n' ∉ (t.drop index).takeWhile (· != '\n') := fun hmem => by
    simpa using List.all_eq_true.1 List.all_takeWhile _ hmem
  unfold placeBehindLine lineEnded endOfLine
  generalize (t.drop index).takeWhile (· != '\n') = lead at hsplit hlead ⊢
  cases hrest : (t.drop index).dropWhile (· != '\n') with
  | nil =>
      rw [hrest, List.append_nil] at hsplit
      have hlength := congrArg List.length hsplit
      rw [List.length_drop] at hlength
      have hend : (t ++ ['\n']).length = index + lead.length + 1 := by
        rw [List.length_append, List.length_singleton]
        omega
      simp only [hrest]
      rw [if_neg (hsplit ▸ hlead), ← hend, List.take_length, List.drop_length]
      simp
  | cons feed after =>
      obtain rfl : feed = '\n' := by
        have hhead := List.head?_dropWhile_not (· != '\n') (t.drop index)
        rw [hrest] at hhead
        simpa using hhead
      rw [hrest] at hsplit
      have hwhole : t = (t.take index ++ lead ++ ['\n']) ++ after := by
        conv => lhs; rw [← List.take_append_drop index t, ← hsplit]
        simp
      have hend : (t.take index ++ lead ++ ['\n']).length = index + lead.length + 1 := by
        rw [List.length_append, List.length_append, List.length_take_of_le hle,
          List.length_singleton]
      have hlength : t.length - after.length = index + lead.length + 1 := by
        rw [← hend]
        conv => lhs; rw [hwhole, List.length_append]
        exact Nat.add_sub_cancel _ _
      have hbehind : t.drop (index + lead.length + 1) = after := by
        conv => lhs; rw [hwhole]
        exact List.drop_left' hend
      simp only [hrest]
      rw [if_pos (by rw [← hsplit]; simp), hbehind, hlength]
      simp

theorem getElem?_lineEnded {t : Text} {i : Nat} (hlt : i < t.length) (index : Nat) :
    (lineEnded t index)[i]? = t[i]? := by
  unfold lineEnded
  split
  · rfl
  · exact List.getElem?_append_left hlt

end Code

theorem Entry.exists_indented_eq {block : Text} (hfull : HasFullLines block) (indent : Text) :
    ∃ rest, indented block indent = indent ++ rest := by
  rw [indented_eq_allBehind hfull, allBehind, lines_eq_tail, List.map_cons]
  cases (splitOn '\n' block).tail.map (indent ++ ·) with
  | nil => exact ⟨firstLine block, rfl⟩
  | cons next others =>
      exact ⟨_, by rw [join_cons (List.cons_ne_nil _ _), List.append_assoc, List.append_assoc]⟩

namespace Entry.MainApplication

/-- Where the declaration ends that names the main module: with its body, if it has one. -/
def accessorStop (t : Text) (accessor : Span) : Nat :=
  (declarationStop t accessor.stop).getD accessor.stop

theorem accessor_bounds {t : Text} {accessor : Span}
    (h : mainModulePattern.search t = some accessor) :
    accessor.start ≤ accessorStop t accessor ∧ accessorStop t accessor ≤ t.length := by
  obtain ⟨hle, hlength, -⟩ := matchesAt_of_search h
  unfold accessorStop
  cases hstop : declarationStop t accessor.stop with
  | none => exact ⟨hle, hlength⟩
  | some stop =>
      obtain ⟨hlt, hlength', -⟩ := declarationStop_eq_some hlength hstop
      exact ⟨Nat.le_trans hle (Nat.le_of_lt hlt), hlength'⟩

theorem opens_mainModulePattern : Opens BeginsMember mainModulePattern := by
  unfold mainModulePattern
  iterate 6 apply Opens.both
  exact opens_memberLeads _ (by decide)

end Entry.MainApplication

/-- The hook goes behind the line on which the declaration of the main module's name ends. When the
line feed there is code, declaration and hook have the same innermost block exactly when every block
that has one end between the start of the declaration and the line feed has both ends there. -/
theorem hook_beside_accessor {t : Text} (hchanged : Installer.expoReactHost.apply t ≠ t)
    {imported : Text} (himported : imported = ensureImports .line t importsInKotlin)
    (hnone : firstDeclaration imported kotlinBundleMethod = none) {accessor : Span}
    (haccessor : mainModulePattern.search imported = some accessor) {ended : Text} {feed : Nat}
    (hended : ended = lineEnded imported (accessorStop imported accessor))
    (hfeed : feed = endOfLine imported (accessorStop imported accessor))
    (hcode : (feed, '\n') ∈ scan ended 0) :
    ∃ indent, IsIndentation indent ∧
      Installer.expoReactHost.apply t = ended.take (feed + 1) ++
        (['\n'] ++ allBehind indent hookInKotlin ++ ['\n'] ++ ended.drop (feed + 1)) ∧
      ((∀ o c, Innermost (Installer.expoReactHost.apply t) accessor.start o c ↔
          Innermost (Installer.expoReactHost.apply t) (feed + 2 + indent.length) o c) ↔
        ∀ o c, IsBlock ended o c →
          (accessor.start < o ∧ o ≤ feed ↔ accessor.start < c ∧ c ≤ feed)) := by
  have hform : ⟨.expoReactHost, hookInKotlin, kotlinBundleMethod⟩ ∈ HookForm.all := .head _
  have htame := HookForm.isTame_of_mem_all hform
  have hfull : HasFullLines hookInKotlin := HookForm.hasFullLines_hook hform
  obtain ⟨hle, hlength⟩ := accessor_bounds haccessor
  have hindent := IsIndentation.indentOfLine imported accessor.start
  have hout : Installer.expoReactHost.apply t =
      placeBehindLine imported (accessorStop imported accessor) hookInKotlin
        (indentOfLine imported accessor.start) := by
    have hinstall : installInWrapper (ensureImports .line t importsInKotlin) =
      some (Installer.expoReactHost.apply t) := Installer.install_of_apply_ne hchanged
    rw [← himported, installInWrapper, hnone] at hinstall
    simp only [haccessor] at hinstall
    exact (Option.some.inj hinstall).symm
  rw [placeBehindLine_eq hlength, ← hended, ← hfeed] at hout
  obtain ⟨rest, hrest⟩ := exists_indented_eq hfull (indentOfLine imported accessor.start)
  refine ⟨_, hindent, by rw [hout, indented_eq_allBehind hfull], ?_⟩
  rw [hout]
  -- The declaration begins with a letter and before the end of its line.
  obtain ⟨d, hlead, hd⟩ := opens_mainModulePattern.of_matchesAt (matchesAt_of_search haccessor)
  rw [List.head?_drop] at hd
  have hstart : ended[accessor.start]? ≠ some '\x7b' := by
    rw [hended, getElem?_lineEnded (List.getElem?_eq_some_iff.1 hd).1, hd]
    rintro ⟨⟩
    exact absurd hlead (by decide)
  have hbefore : accessor.start ≤ feed := by
    rw [hfeed, endOfLine]
    omega
  obtain ⟨code, hpasses, hbalanced⟩ := htame.block.exists_passes_setOff hindent
    isPadding_nil.cons isPadding_nil.cons
  have hinert : Inert ('\n' :: (['\n'] ++ indented hookInKotlin (indentOfLine imported accessor.start)
      ++ ['\n'] ++ ended.drop (feed + 1))) := by
    have hlines := inert_padding isPadding_nil.cons.cons (htame.lead.inert_indented hindent
      (['\n'] ++ ended.drop (feed + 1)))
    simpa using hlines
  refine innermost_behindLine_iff hcode hpasses hinert (hbalanced _ _ rfl) hbefore hstart
    (by omega) ?_ fun o ho hlt => ?_
  · simp only [hrest, List.length_append, List.length_singleton]
    omega
  · -- Before the hook's first letter there are only the line feed and the indentation.
    by_contra hgt
    have hlast := (List.getElem?_eq_some_iff.1 (getElem?_of_mem_scan hcode)).1
    have htake : (ended.take (feed + 1)).length = feed + 1 := List.length_take_of_le hlast
    have hsplit : ['\n'] ++ (indentOfLine imported accessor.start ++ rest) ++ ['\n'] ++
        ended.drop (feed + 1) = ('\n' :: indentOfLine imported accessor.start) ++
          (rest ++ '\n' :: ended.drop (feed + 1)) := by simp
    rw [hrest, List.getElem?_append_right (by omega), htake, hsplit,
      List.getElem?_append_left (by rw [List.length_cons]; omega)] at ho
    have hpadding : IsPadding ('\n' :: indentOfLine imported accessor.start) :=
      (IsPadding.of_isIndentation hindent).cons
    have hmem := List.mem_of_getElem? ho
    exact absurd (isDelimiter_of_isPadding hpadding hmem) (by decide)

/-- A host object with the declaration on a line of its own. -/
def hostObject : Text := block
  ["import com.stallion.Stallion",
   "val host = object : DefaultReactNativeHost(this) \x7b",
   "  override fun getJSMainModuleName() = \"index\"",
   "\x7d", ""]

theorem hook_beside_accessor_hostObject :
    mainModulePattern.search hostObject = some ⟨82, 116⟩ ∧
      ∃ indent, IsIndentation indent ∧
        ∀ o c, Innermost (Installer.expoReactHost.apply hostObject) 82 o c ↔
          Innermost (Installer.expoReactHost.apply hostObject) (128 + indent.length) o c := by
  obtain ⟨hchanged, himported, hnone, hsearch, hended, hfeed, hcode, hopeners, hcloses⟩ :
      Installer.expoReactHost.apply hostObject ≠ hostObject ∧
        hostObject = ensureImports .line hostObject importsInKotlin ∧
        firstDeclaration hostObject kotlinBundleMethod = none ∧
        mainModulePattern.search hostObject = some ⟨82, 116⟩ ∧
        hostObject = lineEnded hostObject (accessorStop hostObject ⟨82, 116⟩) ∧
        126 = endOfLine hostObject (accessorStop hostObject ⟨82, 116⟩) ∧
        (126, '\n') ∈ scan hostObject 0 ∧
        (∀ place ∈ scan hostObject 0, place.2 = '\x7b' → place.1 = 78) ∧
        matchingCloser hostObject 78 = some 127 := by decide +kernel
  obtain ⟨indent, hindent, -, hsame⟩ :=
    hook_beside_accessor hchanged himported hnone hsearch hended hfeed hcode
  refine ⟨hsearch, indent, hindent, hsame.2 fun o c hblock => ?_⟩
  obtain rfl : o = 78 := hopeners _ hblock.isCode rfl
  obtain rfl := Option.some.inj (hblock.closes.symm.trans hcloses)
  decide

/-- A host class on a single line. -/
def hostClassOnLine : Text := block
  ["import com.stallion.Stallion",
   "class Host : DefaultReactNativeHost() \x7b override fun getJSMainModuleName() = \"index\" \x7d",
   ""]

/-- The hook goes behind the class. -/
theorem hook_behind_hostClass :
    firstDeclaration hostClassOnLine kotlinBundleMethod = none ∧
      mainModulePattern.search hostClassOnLine = some ⟨69, 103⟩ ∧
      (69, 'o') ∈ scan hostClassOnLine 0 ∧
      Installer.expoReactHost.apply hostClassOnLine =
        hostClassOnLine.take 116 ++ (['\n'] ++ hookInKotlin ++ ['\n'] ++ hostClassOnLine.drop 116) ∧
      Innermost (Installer.expoReactHost.apply hostClassOnLine) 69 67 114 ∧
      ¬Innermost (Installer.expoReactHost.apply hostClassOnLine) 117 67 114 := by
  obtain ⟨hnone, hsearch, hcode, hout, hopener, hcloses, hopeners⟩ :
      firstDeclaration hostClassOnLine kotlinBundleMethod = none ∧
        mainModulePattern.search hostClassOnLine = some ⟨69, 103⟩ ∧
        (69, 'o') ∈ scan hostClassOnLine 0 ∧
        Installer.expoReactHost.apply hostClassOnLine = hostClassOnLine.take 116 ++
          (['\n'] ++ hookInKotlin ++ ['\n'] ++ hostClassOnLine.drop 116) ∧
        (67, '\x7b') ∈ scan (Installer.expoReactHost.apply hostClassOnLine) 0 ∧
        matchingCloser (Installer.expoReactHost.apply hostClassOnLine) 67 = some 114 ∧
        ∀ place ∈ scan (Installer.expoReactHost.apply hostClassOnLine) 0,
          place.2 = '\x7b' → place.1 < 69 → place.1 ≤ 67 := by decide +kernel
  refine ⟨hnone, hsearch, hcode, hout, ?_, fun hinner => absurd hinner.behind (by decide)⟩
  exact ⟨⟨hopener, hcloses⟩, by decide, by decide,
    fun o c hblock hlt _ => hopeners _ hblock.isCode rfl hlt⟩

end BundleHook
