import BundleHook.Code.Declaration
import BundleHook.Entry.Hook

/-!
# Anchors in an AppDelegate

Where the iOS hook goes: in the place of an earlier one, else before the launch method, else at the
end of the class. Each installer answers `none` when it finds no place.
-/

namespace BundleHook.Entry.AppDelegate

open Text Code Code.Pattern

def swiftLaunchMethod : Pattern :=
  turns (oneOf ["public", "open", "override", "@objc"] ++ gap) ++ word "func" ++ gap ++
    word "application" ++ blanks ++ word "(" ++ blanks ++ word "_" ++ gap ++ word "application" ++
    blanks ++ word ":" ++ blanks ++ word "UIApplication" ++ blanks ++ word "," ++ blanks ++
    word "didFinishLaunchingWithOptions" ++ edge

/-- The head of a Swift delegate class, through its opening brace. -/
def swiftClassPattern : Pattern :=
  edge ++ word "class" ++ gap ++ many isWord ++ word "AppDelegate" ++ edge ++ many (· != '{') ++
    word "\x7b"

def objectiveCLaunchMethod : Pattern :=
  word "-" ++ blanks ++ word "(" ++ blanks ++ word "BOOL" ++ blanks ++ word ")" ++ blanks ++
    word "application" ++ blanks ++ word ":" ++ blanks ++ word "(" ++ blanks ++
    word "UIApplication" ++ blanks ++ word "*" ++ blanks ++ word ")" ++ blanks ++ name ++ gap ++
    word "didFinishLaunchingWithOptions" ++ blanks ++ word ":"

def implementationPattern : Pattern :=
  word "@implementation" ++ gap ++ many isWord ++ word "AppDelegate" ++ edge

/-- The end of an Objective-C class, on a line of its own. -/
def classEndPattern : Pattern := Pattern.lineStart ++ indent ++ word "@end" ++ edge

/-- Puts the Swift hook in the place of an earlier one, else before the launch method, else at the
end of the delegate class. -/
def installSwift (t : Text) : Option Text :=
  match firstDeclaration t swiftBundleMethod with
  | some existing => some (replaceSpan t existing hookInSwift)
  | none =>
    match swiftLaunchMethod.search t with
    | some launch => some (placeBefore t launch.start hookInSwift)
    | none => do
      let head ← swiftClassPattern.search t
      let openBrace := head.stop - 1
      let close ← matchingCloser t openBrace
      return placeBeforeCloser t close hookInSwift (memberIndent t openBrace close)

/-- Puts the Objective-C hook in the place of an earlier one, else before the launch method, else
before the end of the delegate. -/
def installObjectiveC (t : Text) : Option Text :=
  match firstDeclaration t objectiveCBundleMethod with
  | some existing => some (replaceSpan t existing hookInObjectiveC)
  | none =>
    match objectiveCLaunchMethod.search t with
    | some launch => some (placeBefore t launch.start hookInObjectiveC)
    | none => do
      let head ← implementationPattern.search t
      let classEnd ← classEndPattern.searchAfter t head.stop
      return placeBefore t classEnd.start hookInObjectiveC

end BundleHook.Entry.AppDelegate
