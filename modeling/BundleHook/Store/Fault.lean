import BundleHook.Glob.Selection
import BundleHook.Text.Quoted
import BundleHook.Tree.Change
import BundleHook.Tree.Links

/-!
# Faults of a store

What can go wrong with a file of a project. Most faults only mean that the one file cannot be used;
the others are no faults of a file and stop the work.
-/

namespace BundleHook

/-- A fault of a store. -/
inductive StoreFault where
  | unknownKey (key : String)
  | refused (refusal : Refusal)
  /-- The file is not a text. -/
  | notText (flaw : Utf8.Flaw)
  | circle (path : Path)
  | nullCharacter
  | badPattern (fault : Glob.PatternFault)

def Path.shown (p : Path) : String := String.ofList (Text.quoted p.text)

def Refusal.message (refusal : Refusal) : String :=
  "[Errno " ++ toString refusal.obstacle.number ++ "] " ++ refusal.obstacle.words ++ ": " ++
    refusal.path.shown

namespace StoreFault

def message : StoreFault → String
  | unknownKey key => "Key not found: " ++ key
  | refused refusal => refusal.message
  | notText flaw => flaw.message
  | circle path => "Symlink loop from " ++ path.shown
  | nullCharacter => "embedded null byte"
  | badPattern fault => fault.message

/-- Does the fault mean no more than that the file cannot be used? -/
def isOfFile : StoreFault → Bool
  | unknownKey _ | refused _ | notText _ => true
  | circle _ | nullCharacter | badPattern _ => false

end StoreFault

end BundleHook
