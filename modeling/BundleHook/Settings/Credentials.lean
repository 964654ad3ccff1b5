import BundleHook.Failure
import BundleHook.Settings.Check

/-!
# Credentials

The identifier of a Stallion project and the token of its app. A run needs both; a token is known by
how it begins.
-/

namespace BundleHook

/-- The credentials of an app. -/
structure Credentials where
  projectId : Option String
  appToken : Option String
  deriving DecidableEq, Repr

namespace Credentials

/-- Credentials from data; each has two names, of which the first one counts. -/
def check : Check Credentials := Check.record fun fields =>
  Credentials.mk
    <$> Check.fieldOr none ["projectId", "project_id"] (Check.orNull Check.text) fields
    <*> Check.fieldOr none ["appToken", "app_token"] (Check.orNull Check.text) fields

def isGiven (text : Option String) : Bool := text.any fun s => !s.isEmpty

def areGiven (c : Credentials) : Bool := isGiven c.projectId && isGiven c.appToken

def tokenStart : String := "spb_"

def malformedToken : Failure :=
  .ofMessage (.configuration (some "appToken"))
    ("appToken must start with \"" ++ tokenStart ++ "\"")

/-- What is wrong with the credentials that are given. -/
def failure? (c : Credentials) : Option Failure :=
  match c.appToken with
  | some token =>
    if token.isEmpty || tokenStart.toList.isPrefixOf token.toList then none
    else some malformedToken
  | none => none

/-- The credentials by the keys of the resources that hold them. -/
def items (c : Credentials) : List (Text × Text) :=
  [("StallionProjectId".toList, (c.projectId.getD "").toList),
   ("StallionAppToken".toList, (c.appToken.getD "").toList)]

end Credentials

end BundleHook
