import BundleHook.Code.Extent
import BundleHook.Code.Pattern

/-!
# Declarations

A declaration is a signature, recognised by a pattern, together with the body behind it.
-/

namespace BundleHook.Code

/-- The declaration whose signature fills a stretch, when it has a body. -/
def declarationAt (t : Text) (signature : Span) : Option Span :=
  (declarationStop t signature.stop).map fun stop => ⟨signature.start, stop⟩

/-- The first declaration with a body whose signature has the shape of the pattern. -/
def firstDeclaration (t : Text) (signature : Pattern) : Option Span :=
  (signature.stretches t).findSome? (declarationAt t)

end BundleHook.Code
