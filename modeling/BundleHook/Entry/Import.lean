import BundleHook.Code.Pattern

/-!
# Import lines

A hook needs the imports of its dialect. A required import is present when it, or another spelling
of it, stands on a line of its own; a missing one goes behind the last import line of the file, or
to its start when there is none.
-/

namespace BundleHook.Entry

open Code Code.Pattern

/-- How a language writes an import line. -/
inductive ImportStyle where
  | line
  | terminated
  | directive
  deriving DecidableEq, Repr

/-- An import line of the style, with its end. -/
def ImportStyle.pattern : ImportStyle → Pattern
  | line =>
    lineStart ++ indent ++ word "import" ++ indentGap ++ content ++ word "\n"
  | terminated =>
    lineStart ++ indent ++ word "import" ++ indentGap ++ content ++ word ";" ++ indent ++
      maybe (word "\r") ++ word "\n"
  | directive =>
    lineStart ++ indent ++ word "#import" ++ indentGap ++ content ++ word "\n"
where
  content : Pattern := one (· != '\n') ++ many (· != '\n')

/-- An import that a hook needs. -/
structure RequiredImport where
  statement : Text
  aliases : List Text

/-- Does `statement` stand on a line of its own? Blanks around it and a carriage return before the
line feed do not count. -/
def standsAlone (t statement : Text) : Bool :=
  (lineStart ++ indent ++ text statement ++ indent ++ maybe (word "\r") ++ lineEnd).occursIn t

/-- Is the import, in one of its spellings, present? -/
def RequiredImport.isPresent (required : RequiredImport) (t : Text) : Bool :=
  (required.statement :: required.aliases).any (standsAlone t)

def firstLineEnd (t : Text) : Text :=
  if ['\r'].isSuffixOf (t.takeWhile (· != '\n')) && t.contains '\n' then ['\r', '\n'] else ['\n']

def addImport (style : ImportStyle) (statement t : Text) : Text :=
  match (style.pattern.stretches t).getLast? with
  | none => statement ++ firstLineEnd t ++ t
  | some last =>
    let ending :=
      if ['\r', '\n'].isSuffixOf (Text.slice t last.start last.stop) then ['\r', '\n'] else ['\n']
    t.take last.stop ++ statement ++ ending ++ t.drop last.stop

/-- The text with the import present. -/
def ensureImport (style : ImportStyle) (t : Text) (required : RequiredImport) : Text :=
  if required.isPresent t then t else addImport style required.statement t

/-- The text with all the imports present, looked after in order. -/
def ensureImports (style : ImportStyle) (t : Text) (required : List RequiredImport) : Text :=
  required.foldl (ensureImport style) t

end BundleHook.Entry
