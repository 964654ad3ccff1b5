import BundleHook.Report.Log
import BundleHook.Report.ServiceAnswer
import BundleHook.Service.Location

/-!
# Work on a project

Work reads and changes the tree of files and tells events, and it may be hindered. What was changed
and told before a hindrance stays.
-/

namespace BundleHook

/-- The tree of files and the events so far. -/
structure World where
  tree : Tree
  events : List LogEvent

/-- Work with a result. -/
abbrev Work (α : Type) := ExceptT Hindrance (StateM World) α

namespace Work

variable {α : Type}

def tell (event : LogEvent) : Work Unit :=
  modify fun world => { world with events := world.events ++ [event] }

def ask (question : Tree → Except Hindrance α) : Work α := do
  match question (← get).tree with
  | .ok answer => return answer
  | .error hindrance => throw hindrance

def askFiles (question : Tree → Except StoreFault α) : Work α :=
  ask fun t => (question t).mapError .store

/-- Changes the tree, as far as the change gets. -/
def change (step : Tree → Option StoreFault × Tree) : Work Unit := do
  let (fault, after) := step (← get).tree
  modify fun world => { world with tree := after }
  match fault with
  | some fault => throw (.store fault)
  | none => return

/-- The result or the hindrance, when it is one that is expected. -/
def caught (work : Work α) (expected : Hindrance → Bool) : Work (Except Hindrance α) :=
  ExceptT.mk do
    match ← work.run with
    | .ok result => return .ok (.ok result)
    | .error hindrance =>
      return if expected hindrance then .ok (.error hindrance) else .error hindrance

/-- The same work, with more fields in all its events. -/
def inContext (fields : List (String × Datum)) (work : Work α) : Work α :=
  ExceptT.mk fun world =>
    let (result, after) := work.run { world with events := [] }
    let told := after.events.map fun event => { event with fields := event.fields ++ fields }
    (result, { after with events := world.events ++ told })

end Work

/-- A project, and whether its files are only looked at. -/
structure Project where
  store : Store
  dryRun : Bool

/-- What became of a file. -/
structure Change where
  changed : Bool
  written : Bool

/-- Writes a file that has changed, unless files are only looked at. -/
def Project.save (project : Project) (changed : Bool) (write : Tree → Option StoreFault × Tree) :
    Work Change := do
  let written := changed && !project.dryRun
  if written then Work.change write
  return ⟨changed, written⟩

/-- What else a service has to say. -/
inductive Detail where
  | none
  | path (key : String)
  | platform (platform : Platform)
  | diagnostics (diagnostics : List Diagnostic)

/-- What a service says about a file. -/
abbrev FileResult := ServiceAnswer FileReport Detail

end BundleHook
