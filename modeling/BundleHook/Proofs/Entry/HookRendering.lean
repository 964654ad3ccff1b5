import BundleHook.Entry.Outcome
import BundleHook.Proofs.Code.Occurrence
import BundleHook.Proofs.Text.Parts

/-!
# Rendered hooks

A hook is put into a file with its lines indented as the place asks for. Whatever the indentation,
the rendered hook shows the construct that marks an installed hook, because a line break with
spaces and tabs behind it is a blank like any other.
-/

namespace BundleHook.Entry

open Text Code Code.Pattern

/-- The text consists of spaces and tabs. -/
def IsIndentation (t : Text) : Prop := ∀ c ∈ t, isIndent c = true

instance (t : Text) : Decidable (IsIndentation t) := List.decidableBAll _ t

namespace IsIndentation

theorem indentOfLine (t : Text) (index : Nat) : IsIndentation (indentOfLine t index) :=
  fun _ hc => isIndent_of_mem_indentOfLine hc

theorem append {s t : Text} (hs : IsIndentation s) (ht : IsIndentation t) :
    IsIndentation (s ++ t) := by
  intro c hc
  rcases List.mem_append.1 hc with hc | hc
  · exact hs c hc
  · exact ht c hc

theorem memberIndent (t : Text) (openIndex closeIndex : Nat) :
    IsIndentation (memberIndent t openIndex closeIndex) := by
  have hbase : IsIndentation (Text.indentOfLine t openIndex ++ indentStep) :=
    (indentOfLine t openIndex).append (by decide)
  unfold Code.memberIndent
  simp only
  split
  · next line _ =>
    split
    · intro c hc
      have hall : (line.takeWhile isIndent).all isIndent = true := List.all_takeWhile
      exact List.all_eq_true.1 hall c hc
    · exact hbase
  · exact hbase

/-- A line break with an indentation behind it is blank. -/
theorem isBlank_break {indent s : Text} (h : IsIndentation indent) (hs : IsIndentation s) :
    ('\n' :: (indent ++ s)).all isBlank = true := by
  refine List.all_eq_true.2 fun c hc => ?_
  rcases List.mem_cons.1 hc with rfl | hc
  · decide
  · exact isBlank_of_isIndent c (h.append hs c hc)

end IsIndentation

/-! ## The lines of a block -/

/-- The lines of a block behind its first one, rendered at an indentation. -/
def laterLines (lines : List String) (indent : Text) : Text :=
  join ['\n'] (lines.map fun line => indentLine indent line.toList)

section Block

variable {first : String} {others : List String} (hne : others ≠ [])
  (hclean : ∀ line ∈ first :: others, '\n' ∉ line.toList)

include hclean

theorem splitOn_block :
    splitOn '\n' (block (first :: others)) = (first :: others).map String.toList := by
  refine splitOn_join (by simp) fun part hpart => ?_
  obtain ⟨line, hline, rfl⟩ := List.mem_map.1 hpart
  exact hclean line hline

include hne

theorem indented_block (indent : Text) :
    indented (block (first :: others)) indent =
      indentLine indent first.toList ++ ['\n'] ++ laterLines others indent := by
  rw [indented, splitOn_block hclean, List.map_cons, List.map_cons, join_cons (by simpa using hne),
    laterLines, List.map_map]
  rfl

theorem indentRest_block (indent : Text) :
    indentRest (block (first :: others)) indent =
      first.toList ++ ['\n'] ++ laterLines others indent := by
  rw [indentRest, splitOn_block hclean, List.map_cons]
  simp only
  rw [join_cons (by simpa using hne), laterLines, List.map_map]
  rfl

end Block

/-! ## Hooks that show in every rendering -/

/-- The hook shows the pattern at every indentation, be its first line indented or not. -/
structure Rendered (pattern : Pattern) (hook : Text) : Prop where
  indented {indent : Text} (h : IsIndentation indent) : pattern.Shows (indented hook indent)
  indentRest {indent : Text} (h : IsIndentation indent) : pattern.Shows (indentRest hook indent)

/-- A block shows what its lines behind the first one show. -/
theorem Rendered.of_laterLines {pattern : Pattern} {first : String} {others : List String}
    (hne : others ≠ []) (hclean : ∀ line ∈ first :: others, '\n' ∉ line.toList)
    (h : ∀ indent, IsIndentation indent → pattern.Shows (laterLines others indent)) :
    Rendered pattern (block (first :: others)) where
  indented hindent := by
    rw [indented_block hne hclean]
    exact (h _ hindent).append_left _
  indentRest hindent := by
    rw [indentRest_block hne hclean]
    exact (h _ hindent).append_left _

/-! ## The four hooks and the host value -/

section Android

variable {indent : Text} (h : IsIndentation indent)

include h

/-- The choice on the debug flag as the Kotlin hook lays it out. -/
theorem takes_kotlinChoice : Takes androidInstalledPattern
    ("if".toList ++ " ".toList ++ "(".toList ++ [] ++ "BuildConfig.DEBUG".toList ++ [] ++
      ")".toList ++ " ".toList ++ "\x7b".toList ++ ('\n' :: (indent ++ "    ".toList)) ++ [] ++
      "null".toList ++ ('\n' :: (indent ++ "  ".toList)) ++ [] ++ [] ++ "\x7d".toList ++
      " ".toList ++ "else".toList ++ " ".toList ++ "\x7b".toList ++
      ('\n' :: (indent ++ "    ".toList)) ++ [] ++ "Stallion.getJSBundleFile".toList ++ [] ++
      "(".toList) := by
  have hspace : Takes blanks " ".toList := .blanks (by decide)
  have hnone : Takes blanks [] := .blanks (by decide)
  have hdeep : Takes blanks ('\n' :: (indent ++ "    ".toList)) :=
    .blanks (h.isBlank_break (by decide))
  have hless : Takes blanks ('\n' :: (indent ++ "  ".toList)) :=
    .blanks (h.isBlank_break (by decide))
  exact (Takes.word "if").both hspace |>.both (.word "(") |>.both hnone
    |>.both (.word "BuildConfig.DEBUG") |>.both hnone |>.both (.word ")") |>.both hspace
    |>.both (.some (.word "\x7b")) |>.both hdeep |>.both (.none _) |>.both (.word "null")
    |>.both hless |>.both (.none _) |>.both hnone |>.both (.some (.word "\x7d"))
    |>.both hspace |>.both (.word "else") |>.both hspace |>.both (.some (.word "\x7b"))
    |>.both hdeep |>.both (.none _) |>.both (.word "Stallion.getJSBundleFile") |>.both hnone
    |>.both (.word "(")

/-- The choice on the debug flag as the Java hook lays it out. -/
theorem takes_javaChoice : Takes androidInstalledPattern
    ("if".toList ++ " ".toList ++ "(".toList ++ [] ++ "BuildConfig.DEBUG".toList ++ [] ++
      ")".toList ++ " ".toList ++ "\x7b".toList ++ ('\n' :: (indent ++ "    ".toList)) ++
      ("return".toList ++ " ".toList) ++ "null".toList ++ [] ++ ";".toList ++
      ('\n' :: (indent ++ "  ".toList)) ++ "\x7d".toList ++ " ".toList ++ "else".toList ++
      " ".toList ++ "\x7b".toList ++ ('\n' :: (indent ++ "    ".toList)) ++
      ("return".toList ++ " ".toList) ++ "Stallion.getJSBundleFile".toList ++ [] ++
      "(".toList) := by
  have hspace : Takes blanks " ".toList := .blanks (by decide)
  have hnone : Takes blanks [] := .blanks (by decide)
  have hdeep : Takes blanks ('\n' :: (indent ++ "    ".toList)) :=
    .blanks (h.isBlank_break (by decide))
  have hless : Takes blanks ('\n' :: (indent ++ "  ".toList)) :=
    .blanks (h.isBlank_break (by decide))
  have hreturn : Takes (maybe (word "return" ++ gap)) ("return".toList ++ " ".toList) :=
    .some ((Takes.word "return").both (.gap (by decide) (by decide)))
  exact (Takes.word "if").both hspace |>.both (.word "(") |>.both hnone
    |>.both (.word "BuildConfig.DEBUG") |>.both hnone |>.both (.word ")") |>.both hspace
    |>.both (.some (.word "\x7b")) |>.both hdeep |>.both hreturn |>.both (.word "null")
    |>.both hnone |>.both (.some (.word ";")) |>.both hless |>.both (.some (.word "\x7d"))
    |>.both hspace |>.both (.word "else") |>.both hspace |>.both (.some (.word "\x7b"))
    |>.both hdeep |>.both hreturn |>.both (.word "Stallion.getJSBundleFile") |>.both hnone
    |>.both (.word "(")

end Android

/-- The choice on the debug flag on one line, as the host builder takes it. -/
theorem takes_hostChoice : Takes androidInstalledPattern
    ("if".toList ++ " ".toList ++ "(".toList ++ [] ++ "BuildConfig.DEBUG".toList ++ [] ++
      ")".toList ++ " ".toList ++ [] ++ [] ++ [] ++ "null".toList ++ " ".toList ++ [] ++ [] ++
      [] ++ [] ++ "else".toList ++ " ".toList ++ [] ++ [] ++ [] ++
      "Stallion.getJSBundleFile".toList ++ [] ++ "(".toList) := by
  have hspace : Takes blanks " ".toList := .blanks (by decide)
  have hnone : Takes blanks [] := .blanks (by decide)
  exact (Takes.word "if").both hspace |>.both (.word "(") |>.both hnone
    |>.both (.word "BuildConfig.DEBUG") |>.both hnone |>.both (.word ")") |>.both hspace
    |>.both (.none _) |>.both hnone |>.both (.none _) |>.both (.word "null")
    |>.both hspace |>.both (.none _) |>.both hnone |>.both (.none _)
    |>.both hnone |>.both (.word "else") |>.both hspace |>.both (.none _)
    |>.both hnone |>.both (.none _) |>.both (.word "Stallion.getJSBundleFile") |>.both hnone
    |>.both (.word "(")

/-- The conditional on the debug flag, where neither branch holds another directive. -/
theorem takes_debugBranch {opening closing deep called : Text} (hopen : '#' ∉ opening)
    (hclose : '#' ∉ closing) (hdeep : IsIndentation deep)
    (hcalled : Takes
      (either (word "StallionModule.getBundleURL" ++ iosInstalledPattern.noArguments)
        (word "[" ++ blanks ++ word "StallionModule" ++ gap ++ word "getBundleURL" ++ blanks ++
          word "]")) called) :
    Takes iosInstalledPattern
      ("#if".toList ++ [] ++ " ".toList ++ "DEBUG".toList ++ '\n' :: opening ++
        ".expo/.virtual-metro-entry".toList ++ closing ++ "#else".toList ++
        ('\n' :: deep) ++ "return".toList ++ " ".toList ++ called) := by
  have hflag : Takes (word "#if" ++ maybe (word "def") ++ indentGap ++ word "DEBUG")
      ("#if".toList ++ [] ++ " ".toList ++ "DEBUG".toList) :=
    (Takes.word "#if").both (.none _) |>.both (.indentGap (by decide) (by decide))
      |>.both (.word "DEBUG")
  have hstop : "#endif".toList = '#' :: "endif".toList := rfl
  have hopening : Takes (short "#endif".toList) ('\n' :: opening) := by
    rw [hstop]
    exact .short (by simpa using hopen)
  have hclosing : Takes (short "#endif".toList) closing := by
    rw [hstop]
    exact .short hclose
  have hflagged := Takes.edge (s := "#if DEBU".toList) (c := 'G') hflag (by decide) hopening
  have hbreak : Takes gap ('\n' :: deep) :=
    .gap (by decide) (List.all_eq_true.2 fun c hc => isBlank_of_isIndent c (hdeep c hc))
  exact hflagged.both (.word ".expo/.virtual-metro-entry") |>.both hclosing
    |>.both (.word "#else") |>.both hbreak |>.both (.word "return")
    |>.both (.gap (by decide) (by decide)) |>.both hcalled


theorem rendered_hookInKotlin : Rendered androidInstalledPattern hookInKotlin := by
  refine .of_laterLines (by decide) (by decide) fun indent h => ?_
  have hshows := ((Shows.of_takes (takes_kotlinChoice h)).append_left
    (indent ++ "  return ".toList)).append_right
      ("applicationContext)".toList ++ laterLines ["", "  \x7d", "\x7d"] indent)
  simpa [laterLines, join, indentLine] using hshows

theorem rendered_hookInJava : Rendered androidInstalledPattern hookInJava := by
  refine .of_laterLines (by decide) (by decide) fun indent h => ?_
  have hshows := ((Shows.of_takes (takes_javaChoice h)).append_left
    (laterLines ["protected String getJSBundleFile() \x7b", ""] indent ++ indent ++
      "  ".toList)).append_right
      ("getApplicationContext());".toList ++ laterLines ["", "  \x7d", "\x7d"] indent)
  simpa [laterLines, join, indentLine] using hshows

theorem shows_hostValue : androidInstalledPattern.Shows hostValue := by
  have hshows := (Shows.of_takes takes_hostChoice).append_right "applicationContext)".toList
  exact hshows

set_option maxRecDepth 2000 in
theorem rendered_hookInSwift : Rendered iosInstalledPattern hookInSwift := by
  refine .of_laterLines (by decide) (by decide) fun indent h => ?_
  have hhash : '#' ∉ indent := fun hc => absurd (h '#' hc) (by decide)
  have hcalled : Takes (word "StallionModule.getBundleURL" ++ iosInstalledPattern.noArguments)
      ("StallionModule.getBundleURL".toList ++ ([] ++ "(".toList ++ [] ++ ")".toList)) :=
    (Takes.word _).both ((Takes.blanks (by decide)).both (.word "(")
      |>.both (.blanks (by decide)) |>.both (.word ")"))
  have hopen : '#' ∉ indent ++ "    return RCTBundleURLProvider.sharedSettings()".toList ++ '\n' ::
      (indent ++ "      .jsBundleURL(forBundleRoot: \"".toList) := by simp [hhash]
  have hclose : '#' ∉ "\")".toList ++ '\n' :: (indent ++ "  ".toList) := by simp [hhash]
  have hdeep : IsIndentation (indent ++ "    ".toList) := h.append (by decide)
  have hshows := ((Shows.of_takes (takes_debugBranch hopen hclose hdeep hcalled.first)).append_left
    (indent ++ "  ".toList)).append_right (laterLines ["", "  #endif", "\x7d"] indent)
  simpa [laterLines, join, indentLine] using hshows

set_option maxRecDepth 2000 in
theorem rendered_hookInObjectiveC : Rendered iosInstalledPattern hookInObjectiveC := by
  refine .of_laterLines (by decide) (by decide) fun indent h => ?_
  have hhash : '#' ∉ indent := fun hc => absurd (h '#' hc) (by decide)
  have hcalled : Takes
      (word "[" ++ blanks ++ word "StallionModule" ++ gap ++ word "getBundleURL" ++ blanks ++
        word "]")
      ("[".toList ++ [] ++ "StallionModule".toList ++ " ".toList ++ "getBundleURL".toList ++ [] ++
        "]".toList) :=
    (Takes.word "[").both (.blanks (by decide)) |>.both (.word _)
      |>.both (.gap (by decide) (by decide)) |>.both (.word _) |>.both (.blanks (by decide))
      |>.both (.word "]")
  have hopen : '#' ∉ indent ++ "  return [[RCTBundleURLProvider sharedSettings]".toList ++ '\n' ::
      (indent ++ "    jsBundleURLForBundleRoot:@\"".toList) := by simp [hhash]
  have hclose : '#' ∉ "\"];".toList ++ '\n' :: indent := by simp [hhash]
  have hdeep : IsIndentation (indent ++ "  ".toList) := h.append (by decide)
  have hshows := ((Shows.of_takes (takes_debugBranch hopen hclose hdeep hcalled.second)).append_left
    indent).append_right (";".toList ++ laterLines ["", "#endif", "\x7d"] indent)
  simpa [laterLines, join, indentLine] using hshows

end BundleHook.Entry
