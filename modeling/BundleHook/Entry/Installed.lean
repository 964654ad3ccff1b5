import BundleHook.Code.Pattern
import BundleHook.Entry.Platform

/-!
# Installed hooks

A file has its hook when the choice between debug and release and the call of Stallion stand
together as one construct. The call alone is not enough: it may stand there without the choice.
-/

namespace BundleHook

open Code Code.Pattern

/-- A choice on the debug flag whose first branch is null and whose second one asks Stallion, as
Kotlin, Java and the arguments of the host builder write it. -/
def androidInstalledPattern : Pattern :=
  word "if" ++ blanks ++ word "(" ++ blanks ++ word "BuildConfig.DEBUG" ++ blanks ++ word ")" ++
    blanks ++ maybe (word "\x7b") ++ blanks ++ maybe (word "return" ++ gap) ++ word "null" ++
    blanks ++ maybe (word ";") ++ blanks ++ maybe (word "\x7d") ++ blanks ++ word "else" ++
    blanks ++ maybe (word "\x7b") ++ blanks ++ maybe (word "return" ++ gap) ++
    word "Stallion.getJSBundleFile" ++ blanks ++ word "("

/-- A conditional on the debug flag with the development bundle in its first branch and the answer
of Stallion in its second one, with no end of a conditional between. -/
def iosInstalledPattern : Pattern :=
  word "#if" ++ maybe (word "def") ++ indentGap ++ word "DEBUG" ++ edge ++
    short "#endif".toList ++ word ".expo/.virtual-metro-entry" ++
    short "#endif".toList ++ word "#else" ++ gap ++ word "return" ++ gap ++
    either
      (word "StallionModule.getBundleURL" ++ noArguments)
      (word "[" ++ blanks ++ word "StallionModule" ++ gap ++ word "getBundleURL" ++ blanks ++
        word "]")
where
  noArguments : Pattern := blanks ++ word "(" ++ blanks ++ word ")"

def Platform.installedPattern : Platform → Pattern
  | android => androidInstalledPattern
  | ios => iosInstalledPattern

/-- Does the text hold the hook of the platform in its final form? -/
def Platform.isInstalled (platform : Platform) (t : Text) : Bool :=
  platform.installedPattern.occursIn t

end BundleHook
