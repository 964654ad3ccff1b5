/-!
# Results of services

A service that works on one file answers with a result: problems of a file travel as warnings or as
an error in it, together with some metadata.
-/

namespace BundleHook

/-- What a service answers. -/
structure ServiceAnswer (α μ : Type) where
  success : Bool
  data : Option α
  error : Option String
  warnings : List String
  metadata : μ

namespace ServiceAnswer

variable {α μ : Type}

def ok (data : α) (metadata : μ) : ServiceAnswer α μ := ⟨true, some data, none, [], metadata⟩

def fail (error : String) (metadata : μ) : ServiceAnswer α μ :=
  ⟨false, none, some error, [], metadata⟩

/-- The service has done its work, with warnings. -/
def okWith (data : α) (warnings : List String) (metadata : μ) : ServiceAnswer α μ :=
  ⟨true, some data, none, warnings, metadata⟩

end ServiceAnswer

end BundleHook
