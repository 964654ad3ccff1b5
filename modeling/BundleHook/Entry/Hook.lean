import BundleHook.Code.Pattern
import BundleHook.Entry.Import

/-!
# Hooks

The code that hands the choice of the JavaScript bundle to Stallion: debug builds keep the
development server, release builds ask Stallion. Each language has its form of the hook and the
pattern of the declaration that the hook takes the place of.
-/

namespace BundleHook.Entry

open Code Code.Pattern

def block (blockLines : List String) : Text := Text.join ['\n'] (blockLines.map String.toList)

/-! ## Hook bodies -/

/-- The Kotlin hook: an override of the bundle file. -/
def hookInKotlin : Text := block
  ["override fun getJSBundleFile(): String? \x7b",
   "  return if (BuildConfig.DEBUG) \x7b",
   "    null",
   "  \x7d else \x7b",
   "    Stallion.getJSBundleFile(applicationContext)",
   "  \x7d",
   "\x7d"]

def hookInJava : Text := block
  ["@Override",
   "protected String getJSBundleFile() \x7b",
   "  if (BuildConfig.DEBUG) \x7b",
   "    return null;",
   "  \x7d else \x7b",
   "    return Stallion.getJSBundleFile(getApplicationContext());",
   "  \x7d",
   "\x7d"]

/-- The argument of the host builder that names the bundle file. -/
def hostArgument : String := "jsBundleFilePath"

/-- What the host builder's bundle argument is set to. -/
def hostValue : Text :=
  "if (BuildConfig.DEBUG) null else Stallion.getJSBundleFile(applicationContext)".toList

/-- The Swift hook: an override of the bundle address. -/
def hookInSwift : Text := block
  ["override func bundleURL() -> URL? \x7b",
   "  #if DEBUG",
   "    return RCTBundleURLProvider.sharedSettings()",
   "      .jsBundleURL(forBundleRoot: \".expo/.virtual-metro-entry\")",
   "  #else",
   "    return StallionModule.getBundleURL()",
   "  #endif",
   "\x7d"]

def hookInObjectiveC : Text := block
  ["- (NSURL *)bundleURL \x7b",
   "#if DEBUG",
   "  return [[RCTBundleURLProvider sharedSettings]",
   "    jsBundleURLForBundleRoot:@\".expo/.virtual-metro-entry\"];",
   "#else",
   "  return [StallionModule getBundleURL];",
   "#endif",
   "\x7d"]

/-! ## Required imports -/

def importsInKotlin : List RequiredImport := [⟨"import com.stallion.Stallion".toList, []⟩]

def importsInJava : List RequiredImport := [⟨"import com.stallion.Stallion;".toList, []⟩]

def importsInSwift : List RequiredImport :=
  [⟨"import react_native_stallion".toList, []⟩, ⟨"import React".toList, []⟩]

def importsInObjectiveC : List RequiredImport :=
  [⟨"#import <react_native_stallion/StallionModule.h>".toList,
    ["#import \"StallionModule.h\"".toList]⟩,
   ⟨"#import <React/RCTBundleURLProvider.h>".toList,
    ["#import \"RCTBundleURLProvider.h\"".toList]⟩]

/-! ## Declarations that a hook replaces -/

def noParameters : Pattern := blanks ++ word "(" ++ blanks ++ word ")"

/-- The Kotlin annotation of a text result, which may be left out. -/
def kotlinResult : Pattern :=
  maybe (blanks ++ word ":" ++ blanks ++ word "String" ++ maybe (word "?"))

def kotlinBundleMethod : Pattern :=
  maybe (oneOf ["public", "protected", "internal"] ++ gap) ++ word "override" ++ gap ++
    word "fun" ++ gap ++ word "getJSBundleFile" ++ noParameters ++ kotlinResult

def javaAnnotation : Pattern := word "@" ++ name ++ gap

def javaBundleMethod : Pattern :=
  turns javaAnnotation ++ maybe (oneOf ["public", "protected", "private"] ++ gap) ++
    maybe javaAnnotation ++ word "String" ++ gap ++ word "getJSBundleFile" ++ noParameters

def mainModulePattern : Pattern :=
  word "override" ++ gap ++ word "fun" ++ gap ++ word "getJSMainModuleName" ++ noParameters ++
    kotlinResult

def swiftBundleMethod : Pattern :=
  maybe (word "override" ++ gap) ++ maybe (oneOf ["public", "open"] ++ gap) ++ word "func" ++ gap ++
    word "bundleURL" ++ noParameters ++ blanks ++ word "->" ++ blanks ++ word "URL" ++
    maybe (word "?")

/-- An Objective-C method that gives the bundle address. -/
def objectiveCBundleMethod : Pattern :=
  word "-" ++ blanks ++ word "(" ++ blanks ++ word "NSURL" ++ blanks ++ word "*" ++ blanks ++
    word ")" ++ blanks ++ word "bundleURL" ++ edge

end BundleHook.Entry
