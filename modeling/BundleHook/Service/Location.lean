import BundleHook.Entry.Platform
import BundleHook.Failure
import BundleHook.PropertyList.Problem
import BundleHook.Store.Basic

/-!
# Where the native files are

The native files of a project have known places, some of them given by patterns. Of several files
that fit, the first one in order counts.
-/

namespace BundleHook

/-- What keeps a service from its work. -/
inductive Hindrance where
  | failure (failure : Failure)
  | store (fault : StoreFault)
  | breakdown (breakdown : Breakdown)

namespace Location

def mainApplicationPatterns : List String :=
  ["android/app/src/main/java/**/MainApplication.kt",
   "android/app/src/main/java/**/MainApplication.java"]

def appDelegatePatterns : List String :=
  ["ios/*/AppDelegate.swift", "ios/*/AppDelegate.mm", "ios/*/AppDelegate.m"]

def propertyListPattern : String := "ios/*/Info.plist"

def propertyListName : String := "Info.plist"

/-- Where the strings of the app are; the file need not be there. -/
def stringTableKey : String := "android/app/src/main/res/values/strings.xml"

/-- The first file that one of some patterns selects, the patterns tried in order. -/
def first? (store : Store) (t : Tree) : List String → Except StoreFault (Option String)
  | [] => .ok none
  | pattern :: others => do
    match ← store.glob t pattern with
    | key :: _ => return some key
    | [] => first? store t others

def notFound (platform : Platform) (name : String) (patterns : List String) : Failure :=
  .ofMessage (.layout platform.label (" or ".intercalate patterns)) (name ++ " not found")

def locate (store : Store) (t : Tree) (platform : Platform) (name : String)
    (patterns : List String) : Except Hindrance String := do
  match ← (first? store t patterns).mapError .store with
  | some key => return key
  | none => throw (.failure (notFound platform name patterns))

def ofMainApplication (store : Store) (t : Tree) : Except Hindrance String :=
  locate store t .android "MainApplication" mainApplicationPatterns

def ofAppDelegate (store : Store) (t : Tree) : Except Hindrance String :=
  locate store t .ios "AppDelegate" appDelegatePatterns

def ofEntryFile (store : Store) (t : Tree) : Platform → Except Hindrance String
  | .android => ofMainApplication store t
  | .ios => ofAppDelegate store t

/-- The key of a file beside another one. -/
def beside (key name : String) : String :=
  let names := Text.splitOn '/' key.toList
  String.ofList (Text.join ['/'] (names.take (names.length - 1) ++ [name.toList]))

/-- The property list beside the AppDelegate, when both are there. -/
def propertyListBeside? (store : Store) (t : Tree) : Except Hindrance (Option String) :=
  match ofAppDelegate store t with
  | .ok delegate => do
    let key := beside delegate propertyListName
    return if ← (store.has t key).mapError .store then some key else none
  | .error (.failure _) => .ok none
  | .error hindrance => .error hindrance

/-- The key of the property list of the app: the one beside the AppDelegate comes first. -/
def ofPropertyList (store : Store) (t : Tree) : Except Hindrance String := do
  match ← propertyListBeside? store t with
  | some key => return key
  | none => locate store t .ios propertyListName [propertyListPattern]

end Location

end BundleHook
