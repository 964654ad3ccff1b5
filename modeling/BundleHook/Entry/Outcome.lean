import BundleHook.Entry.AppDelegate
import BundleHook.Entry.Installed
import BundleHook.Entry.MainApplication

/-!
# Patching an entry file

A file that has its hook is left alone. Otherwise the installer of its dialect is applied, and a
file it cannot patch is left alone with a warning. An iOS file of no known dialect is tried as Swift
and then as Objective-C.
-/

namespace BundleHook

open Entry

/-- How serious a message is. -/
inductive Severity where
  | info
  | warning
  deriving DecidableEq, Repr

/-- A message about one file. -/
structure Diagnostic where
  severity : Severity
  fileName : String
  message : String
  deriving DecidableEq, Repr

def Diagnostic.line (diagnostic : Diagnostic) : String :=
  diagnostic.fileName ++ ": " ++ diagnostic.message

def warningsOf (diagnostics : List Diagnostic) : List Diagnostic :=
  diagnostics.filter (·.severity = .warning)

/-- What was decided about an entry file. -/
structure Outcome where
  fileName : String
  dialect : Dialect
  /-- The final text: the file's own when nothing changed. -/
  contents : Text
  changed : Bool
  alreadyPatched : Bool
  diagnostics : List Diagnostic

/-- A way to put the hook into an entry file: its imports and its search for a place. -/
structure Installer where
  platform : Platform
  style : ImportStyle
  imports : List RequiredImport
  install : Text → Option Text

namespace Installer

/-- The text with imports and hook; the text itself when it has the hook already or has no place for
it, so that imports never come alone. -/
def apply (installer : Installer) (t : Text) : Text :=
  if installer.platform.isInstalled t then t
  else (installer.install (ensureImports installer.style t installer.imports)).getD t

def expoReactHost : Installer :=
  ⟨.android, .line, importsInKotlin, MainApplication.installInWrapper⟩

def reactHost : Installer := ⟨.android, .line, importsInKotlin, MainApplication.installInHostCall⟩

def kotlin : Installer :=
  ⟨.android, .line, importsInKotlin,
    MainApplication.installInClass hookInKotlin kotlinBundleMethod
      MainApplication.kotlinLaunchMethod⟩

def java : Installer :=
  ⟨.android, .terminated, importsInJava,
    MainApplication.installInClass hookInJava javaBundleMethod MainApplication.javaLaunchMethod⟩

def swift : Installer := ⟨.ios, .line, importsInSwift, AppDelegate.installSwift⟩

def objectiveC : Installer := ⟨.ios, .directive, importsInObjectiveC, AppDelegate.installObjectiveC⟩

end Installer

def AndroidDialect.installer? : AndroidDialect → Option Installer
  | expoReactHostWrapper => some .expoReactHost
  | reactHost => some .reactHost
  | kotlinHost => some .kotlin
  | javaHost => some .java
  | unrecognized => none

def IosDialect.installer? : IosDialect → Option Installer
  | swiftDelegate => some .swift
  | objectiveCDelegate => some .objectiveC
  | unrecognized => none

/-- The warning for an entry file that could not be patched, or only by a guess. -/
inductive Difficulty where
  | unknownMainApplication
  | unknownAppDelegate
  | guessed (language : String)
  /-- The dialect is known but has no place for the hook. -/
  | noAnchor (dialect : Dialect)

def Difficulty.message : Difficulty → String
  | unknownMainApplication =>
    "Could not detect MainApplication style. " ++
      "Please manually configure the Stallion bundle provider."
  | unknownAppDelegate =>
    "Could not detect AppDelegate structure. Please manually configure the Stallion bundle URL."
  | guessed language =>
    "Could not definitively detect AppDelegate language; patched as " ++ language ++ "."
  | noAnchor dialect =>
    "Detected " ++ dialect.label ++ " but found no place to install the Stallion hook. " ++
      "Please configure it manually."

namespace Outcome

def warnings (outcome : Outcome) : List Diagnostic := warningsOf outcome.diagnostics

def installed (fileName : String) (dialect : Dialect) (t : Text) : Outcome :=
  ⟨fileName, dialect, t, false, true, []⟩

/-- The file is left alone, with a warning. -/
def refused (fileName : String) (dialect : Dialect) (t : Text) (why : Difficulty) : Outcome :=
  ⟨fileName, dialect, t, false, false, [⟨.warning, fileName, why.message⟩]⟩

def patched (fileName : String) (dialect : Dialect) (contents : Text)
    (diagnostics : List Diagnostic) : Outcome :=
  ⟨fileName, dialect, contents, true, false, diagnostics⟩

def ofInstaller (fileName : String) (dialect : Dialect) (installer : Installer) (t : Text) :
    Outcome :=
  let contents := installer.apply t
  if contents = t then refused fileName dialect t (.noAnchor dialect)
  else patched fileName dialect contents []

/-- The outcome for an AppDelegate of no known dialect: the first language that changes it. -/
def ofGuesses (fileName : String) (t : Text) : List (String × Installer) → Outcome
  | [] => refused fileName (.ios .unrecognized) t .unknownAppDelegate
  | (language, installer) :: others =>
    let contents := installer.apply t
    if contents = t then ofGuesses fileName t others
    else
      patched fileName (.ios .unrecognized) contents
        [⟨.warning, fileName, (Difficulty.guessed language).message⟩]

/-- The languages to try on an AppDelegate of no known dialect. -/
def guesses : List (String × Installer) := [("Swift", .swift), ("Objective-C", .objectiveC)]

def ofMainApplication (fileName : String) (t : Text) : Outcome :=
  let dialect := AndroidDialect.ofText t
  if Platform.android.isInstalled t then installed fileName (.android dialect) t
  else match dialect.installer? with
    | some installer => ofInstaller fileName (.android dialect) installer t
    | none => refused fileName (.android dialect) t .unknownMainApplication

def ofAppDelegate (fileName : String) (t : Text) : Outcome :=
  let dialect := IosDialect.ofText t
  if Platform.ios.isInstalled t then installed fileName (.ios dialect) t
  else match dialect.installer? with
    | some installer => ofInstaller fileName (.ios dialect) installer t
    | none => ofGuesses fileName t guesses

/-- The outcome of patching an entry file of a platform. -/
def ofEntry (platform : Platform) (fileName : String) (t : Text) : Outcome :=
  match platform with
  | .android => ofMainApplication fileName t
  | .ios => ofAppDelegate fileName t

end Outcome

/-- The name of the entry file, for a text that comes without one. -/
def Platform.entryName : Platform → String
  | android => "MainApplication"
  | ios => "AppDelegate"

end BundleHook
