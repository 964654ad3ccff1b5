import BundleHook.Code.Declaration
import BundleHook.Entry.Hook

/-!
# Anchors in a MainApplication

Where the Android hook goes: in the place of an earlier one, else beside a member that every such
class has, else at the end of the class. Each installer answers `none` when it finds no place.
-/

namespace BundleHook.Entry.MainApplication

open Text Code Code.Pattern

/-- The head of the application class, through its opening brace. -/
def classPattern : Pattern :=
  edge ++ word "class" ++ gap ++ word "MainApplication" ++ edge ++ many (· != '{') ++ word "\x7b"

def kotlinLaunchMethod : Pattern :=
  maybe (oneOf ["public", "protected"] ++ gap) ++ word "override" ++ gap ++ word "fun" ++ gap ++
    word "onCreate" ++ blanks ++ word "("

def javaLaunchMethod : Pattern :=
  maybe (word "@Override" ++ gap) ++ maybe (oneOf ["public", "protected"] ++ gap) ++ word "void" ++
    gap ++ word "onCreate" ++ blanks ++ word "("

/-- The start of an anonymous host object, through the opening parenthesis. -/
def hostObjectPattern : Pattern :=
  word "object" ++ blanks ++ word ":" ++ blanks ++ word "DefaultReactNativeHost" ++ blanks ++
    word "("

/-- A call of the default host builder, through the opening parenthesis. -/
def defaultHostCallPattern : Pattern :=
  edge ++ word "getDefaultReactHost" ++ blanks ++ word "("

/-- A call of the host's constructor, through the opening parenthesis. -/
def hostCallPattern : Pattern := edge ++ word "ReactHost" ++ blanks ++ word "("

/-- The bundle argument with its sign, up to its value. -/
def hostArgumentPattern : Pattern :=
  edge ++ word hostArgument ++ blanks ++ one (fun c => c == ':' || c == '=') ++ blanks

/-- Puts `hook` as the last member of the application class. -/
def placeAtClassEnd (t hook : Text) : Option Text := do
  let head ← classPattern.search t
  let openBrace := head.stop - 1
  let close ← matchingCloser t openBrace
  return placeBeforeCloser t close hook (memberIndent t openBrace close)

/-- Puts `hook` in the place of an earlier one, else before the launch method, else at the end of
the class. -/
def installInClass (hook : Text) (hookPattern launchPattern : Pattern) (t : Text) : Option Text :=
  match firstDeclaration t hookPattern with
  | some existing => some (replaceSpan t existing hook)
  | none =>
    match launchPattern.search t with
    | some launch => some (placeBefore t launch.start hook)
    | none => placeAtClassEnd t hook

/-- The opening brace behind the parameter list of an anonymous host object. -/
def hostObjectBrace (t : Text) (object : Span) : Option Nat := do
  let closeParen ← matchingCloser t (object.stop - 1)
  let brace := skipBlanks t (closeParen + 1)
  if t[brace]? = some '{' then some brace else none

/-- Puts the Kotlin hook in the place of an earlier one, else behind the main module's name, else at
the start of the host object. -/
def installInWrapper (t : Text) : Option Text :=
  match firstDeclaration t kotlinBundleMethod with
  | some existing => some (replaceSpan t existing hookInKotlin)
  | none =>
    match mainModulePattern.search t with
    | some accessor =>
      let stop := (declarationStop t accessor.stop).getD accessor.stop
      some (placeBehindLine t stop hookInKotlin (indentOfLine t accessor.start))
    | none => do
      let object ← hostObjectPattern.search t
      let brace ← hostObjectBrace t object
      let closeBrace ← matchingCloser t brace
      let indent := memberIndent t brace closeBrace
      return t.take (brace + 1) ++ ['\n'] ++ indented hookInKotlin indent ++ ['\n'] ++
        t.drop (brace + 1)

/-- The text up to `stop` without the spaces, tabs and carriage returns at the end of the part
behind `start`. -/
def trimmedStop (t : Text) (start stop : Nat) : Nat :=
  let value := slice t start stop
  stop - (value.reverse.takeWhile fun c => isIndent c || c == '\r').length

/-- Adds the bundle argument as the first one of the call between two parentheses. Arguments laid
out one on a line keep that layout. -/
def addHostArgument (t : Text) (openParen closeParen : Nat) : Text :=
  let argument := hostArgument.toList ++ " = ".toList ++ hostValue
  let after := openParen + 1
  let first := skipBlanks t after
  if (slice t after first).contains '\n' then
    let indent :=
      if first < closeParen then indentOfLine t first else indentOfLine t openParen ++ "    ".toList
    t.take after ++ ['\n'] ++ indent ++ argument ++ [','] ++ t.drop after
  else if first = closeParen then t.take after ++ argument ++ t.drop closeParen
  else t.take after ++ argument ++ [',', ' '] ++ t.drop first

/-- Sets the bundle argument of the call whose opening parenthesis ends `call`. -/
def setHostArgument (t : Text) (call : Span) : Option Text := do
  let openParen := call.stop - 1
  let closeParen ← matchingCloser t openParen
  match hostArgumentPattern.searchAfter (t.take closeParen) openParen with
  | some argument =>
    let start := argument.stop
    let stop := trimmedStop t start (expressionStop t start [',', ')'])
    return t.take start ++ hostValue ++ t.drop stop
  | none => return addHostArgument t openParen closeParen

/-- Sets the bundle argument of the first call of the host builder. -/
def installInHostCall (t : Text) : Option Text := do
  let call ← (defaultHostCallPattern.search t).or (hostCallPattern.search t)
  setHostArgument t call

end BundleHook.Entry.MainApplication
