import BundleHook.Text.Blank

/-!
# Platforms and dialects

The entry file of a platform comes in dialects that overlap in their words. A dialect is recognised
by words alone, and the first one in order of precedence whose test holds is the file's.
-/

namespace BundleHook

/-- A native platform. -/
inductive Platform where
  | android
  | ios
  deriving DecidableEq, Repr

/-- The ways a MainApplication is written. -/
inductive AndroidDialect where
  | expoReactHostWrapper
  | reactHost
  | kotlinHost
  | javaHost
  | unrecognized
  deriving DecidableEq, Repr

/-- The ways an AppDelegate is written. -/
inductive IosDialect where
  | swiftDelegate
  | objectiveCDelegate
  | unrecognized
  deriving DecidableEq, Repr

/-- A dialect of either platform. -/
inductive Dialect where
  | android (dialect : AndroidDialect)
  | ios (dialect : IosDialect)
  deriving DecidableEq, Repr

def Platform.label : Platform → String
  | android => "android"
  | ios => "ios"

def AndroidDialect.label : AndroidDialect → String
  | expoReactHostWrapper => "expo_react_host_wrapper"
  | reactHost => "react_host"
  | kotlinHost => "kotlin_host"
  | javaHost => "java_host"
  | unrecognized => "unrecognized"

def IosDialect.label : IosDialect → String
  | swiftDelegate => "swift_delegate"
  | objectiveCDelegate => "objc_delegate"
  | unrecognized => "unrecognized"

def Dialect.label : Dialect → String
  | android dialect => dialect.label
  | ios dialect => dialect.label

def Dialect.platform : Dialect → Platform
  | android _ => .android
  | ios _ => .ios

/-! ## Recognition -/

def Text.mentions (t : Text) (words : String) : Bool := Text.has words.toList t

def AndroidDialect.ofText (t : Text) : AndroidDialect :=
  if t.mentions "ReactNativeHostWrapper" && t.mentions "DefaultReactNativeHost" &&
      t.mentions "getJSMainModuleName" then
    expoReactHostWrapper
  else if t.mentions "ReactHost" || t.mentions "getDefaultReactHost" then reactHost
  else if t.mentions "class MainApplication" then
    if t.mentions "override fun" then kotlinHost else javaHost
  else unrecognized

def IosDialect.ofText (t : Text) : IosDialect :=
  let directive := t.mentions "#import"
  if (t.mentions "import " && !directive) || (t.mentions "@objc" && t.mentions "func") ||
      (t.mentions "func " && !t.mentions "@implementation" && !directive) then
    swiftDelegate
  else if t.mentions "@implementation" || directive || t.mentions "@interface" then
    objectiveCDelegate
  else unrecognized

/-- The platform of an entry file, read off the ending of its name. -/
def Platform.ofFileName (fileName : Text) : Option Platform :=
  if [".kt", ".java"].any fun ending => fileName.endsWith ending.toList then some android
  else if [".swift", ".mm", ".m"].any fun ending => fileName.endsWith ending.toList then some ios
  else none

end BundleHook
