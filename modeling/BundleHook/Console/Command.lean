import BundleHook.Console.Arguments
import BundleHook.Console.Block
import BundleHook.Console.Tagged
import BundleHook.Service.Run
import BundleHook.Settings.Config

/-!
# Commands

The command line applies the plugin to a project, tells what is known about an entry file, patches
entry files, and shows the configuration. A command ends with an exit code, or by something that it
does not deal with.
-/

namespace BundleHook

/-- How a command ends. -/
inductive Ending where
  | exit (code : Nat)
  | hindered (hindrance : Hindrance)
  | invalid (complaints : List Complaint)
  | badTag (fault : TagFault)

/-- What a command works on, and what it has shown so far. -/
structure Session where
  world : World
  /-- The least level of messages, once it is set. -/
  level : Option LogLevel
  output : List Block

/-- What a command is given besides its arguments. -/
structure Surroundings where
  environment : Environment
  directory : Path

/-- A command with a result. -/
abbrev Command (α : Type) := ExceptT Ending (StateM Session) α

namespace Command

variable {α : Type}

def version : String := "1.0.0"

def leave (code : Nat) : Command α := throw (.exit code)

/-- The exit code of arguments that are not understood. -/
def misuse : Nat := 2

def shown (t : String) : Command Text :=
  match Tagged.shown t.toList with
  | .ok t => return t
  | .error fault => throw (.badTag fault)

def put (block : Block) : Command Unit :=
  modify fun session => { session with output := session.output ++ [block] }

def print (t : String) : Command Unit := do put (.lines (← shown t))

def printTable (title : String) (headings : List String) (rows : List (List String)) :
    Command Unit := do
  let rows ← rows.mapM fun row => row.mapM shown
  put (.table (← shown title) (headings.map String.toList) rows)

def perform (work : Work α) : Command (Except Hindrance α) := ExceptT.mk fun session =>
  let (result, world) := work.run session.world
  (.ok result, { session with world })

def setLevel (level : LogLevel) : Command Unit :=
  modify fun session => { session with level := some level }

def configuration (around : Surroundings) : Command Config :=
  match around.environment.config with
  | .fits config => return config
  | .wrong complaints => throw (.invalid complaints)

def arguments (options : Options) (given : List String) : Command Arguments :=
  match Arguments.read ⟨"--help" :: options.flags, options.valued⟩ given with
  | some arguments => if arguments.has "--help" then leave 0 else return arguments
  | none => leave misuse

/-- The path, without links, of something that has to be there. -/
def existing (around : Surroundings) (wanted : Arrival → Bool) (word : String) : Command Path := do
  let tree := (← get).world.tree
  match tree.resolve (.ofText around.directory word.toList) with
  | .error _ => leave misuse
  | .ok path =>
    match tree.look path with
    | .ok arrival => if wanted arrival then return path else leave misuse
    | .error _ => leave misuse

/-! ## Applying the plugin -/

def statusText : FileState → String
  | .patched => "[green]patched[/green]"
  | .unchanged => "[dim]unchanged[/dim]"
  | .unrecognized => "[yellow]unrecognized[/yellow]"
  | .missing => "[red]missing[/red]"

/-- What is given, unless it is empty, or else what is set. -/
def givenOr (given set : Option String) : Option String :=
  match given with
  | some value => if value.isEmpty then set else some value
  | none => set

def reportRow (report : FileReport) : List String :=
  [report.platform.label, report.path, report.dialect.getD "-", statusText report.status]

def printReport (report : RunReport) : Command Unit := do
  if report.skipped then
    report.diagnostics.forM fun d => print ("[yellow]" ++ d.message ++ "[/yellow]")
  else
    printTable "Stallion Plugin Results" ["Platform", "File", "Dialect", "Status"]
      (report.files.map reportRow)
    if report.warnings.isEmpty then
      print "\n[bold green]✓ Stallion is wired in![/bold green]"
    else
      print "\n[bold yellow]Warnings:[/bold yellow]"
      report.warnings.forM fun d => print ("  • " ++ d.line)

def apply (around : Surroundings) (given : List String) : Command Unit := do
  let arguments ← arguments ⟨["--dry-run", "--verbose"], ["--project-id", "--app-token"]⟩ given
  let [word] := arguments.words | leave misuse
  let project ← existing around Glob.isDirectory word
  let set ← configuration around
  let level := if arguments.has "--verbose" then .debug else set.logLevel
  let patch := { set.patch with dryRun := set.patch.dryRun || arguments.has "--dry-run" }
  setLevel level
  let credentials : Credentials :=
    ⟨givenOr (arguments.value? "--project-id") set.projectId,
      givenOr (arguments.value? "--app-token") set.appToken⟩
  put (.panel ["expo-stallion".toList, "Stallion bundle provider for Expo".toList])
  print ("\n[bold]Project:[/bold] " ++ String.ofList project.text)
  if patch.dryRun then print "[bold]Mode:[/bold] dry run\n"
  match ← perform (runOver project credentials patch) with
  | .ok report => printReport report
  | .error (.failure failure) =>
    print ("\n[bold red]✗ " ++ failure.text ++ "[/bold red]")
    leave 1
  | .error hindrance => throw (.hindered hindrance)

/-! ## Entry files -/

/-- The ending of a file name, with its dot; a name that only begins with a dot has none. -/
def suffix (name : Text) : Text :=
  let ending := (name.reverse.takeWhile (· ≠ '.')).reverse
  if ending.isEmpty || name.length ≤ ending.length + 1 then [] else '.' :: ending

def detect (around : Surroundings) (given : List String) : Command Unit := do
  let [word] := (← arguments ⟨[], []⟩ given).words | leave misuse
  let path ← existing around Glob.isFile word
  match Platform.ofFileName path.name with
  | none =>
    print ("[red]Error: unsupported file type '" ++ String.ofList (suffix path.name) ++ "'[/red]")
    leave 1
  | some platform =>
    let .ok (.file _ contents) := (← get).world.tree.look path | leave misuse
    match Utf8.decode contents with
    | .error flaw => throw (.hindered (.store (.notText flaw)))
    | .ok read =>
      let text := Text.unifyLines read
      let dialect : Dialect :=
        match platform with
        | .android => .android (.ofText text)
        | .ios => .ios (.ofText text)
      printTable (String.ofList path.name) ["Property", "Value"]
        [["Platform", platform.label], ["Dialect", dialect.label],
         ["Patched", if platform.isInstalled text then "[green]yes[/green]" else "no"]]

/-- The last directory above all of some files. -/
def commonDirectory : List Path → Path
  | [] => .top
  | first :: others => others.foldl (fun common path => common.common path.parent) first.parent

/-- The key of a file, seen from a directory. -/
def keyFrom (directory path : Path) : String :=
  String.ofList (Text.join ['/'] ((directory.namesTo? path).getD path.names))

def printOutcome (path : Path) (outcome : FileOutcome) : Command Unit := do
  let status := (outcome.report.map (·.status)).getD .missing
  print (statusText status ++ "  " ++ String.ofList path.text)
  outcome.diagnostics.forM fun d => print ("    [yellow]" ++ d.message ++ "[/yellow]")

def patch (around : Surroundings) (given : List String) : Command Unit := do
  let arguments ← arguments ⟨["--dry-run"], []⟩ given
  if arguments.words.isEmpty then leave misuse
  let paths ← arguments.words.mapM (existing around Glob.isFile)
  setLevel (← configuration around).logLevel
  let root := commonDirectory paths
  let work : Work (List FileOutcome) := do
    let store ← Work.askFiles (Store.ofProject · root)
    (Project.mk store (arguments.has "--dry-run")).patchAll (paths.map (keyFrom root))
  match ← perform work with
  | .error hindrance => throw (.hindered hindrance)
  | .ok outcomes =>
    (paths.zip outcomes).forM fun (path, outcome) => printOutcome path outcome
    if outcomes.any (·.report.isNone) then leave 1

/-! ## Configuration -/

def flagText (flag : Bool) : String := if flag then "True" else "False"

def notSet : String := "[dim]not set[/dim]"

/-- Shows the configuration; the token itself is not shown. -/
def showConfiguration (around : Surroundings) (given : List String) : Command Unit := do
  let arguments ← arguments ⟨["--show"], []⟩ given
  if !arguments.words.isEmpty then leave misuse
  let config ← configuration around
  printTable "Current Configuration" ["Setting", "Value"]
    [["Log Level", config.logLevel.label],
     ["JSON Logs", flagText config.jsonLogs],
     ["Project Id", config.projectId.getD notSet],
     ["App Token", if config.appToken.isSome then "********" else notSet],
     ["Patch Android", flagText config.patch.androidEnabled],
     ["Patch iOS", flagText config.patch.iosEnabled],
     ["Dry Run", flagText config.patch.dryRun]]
  print "\n[dim]Configure via environment variables:[/dim]"
  print "  STALLION_PROJECT_ID, STALLION_APP_TOKEN, STALLION_LOG_LEVEL"
  print "  STALLION_PATCH_ANDROID, STALLION_PATCH_IOS, STALLION_DRY_RUN"

/-! ## The command line -/

def named (around : Surroundings) : (name : String) → (given : List String) → Command Unit
  | "apply", given => apply around given
  | "detect", given => detect around given
  | "patch", given => patch around given
  | "config", given => showConfiguration around given
  | _, _ => leave misuse

/-- Is the argument a dash and then only the letter for the version? -/
def asksVersion (argument : String) : Bool :=
  argument = "--version" ||
    match argument.toList with
    | '-' :: letters => !letters.isEmpty && letters.all (· = 'v')
    | _ => false

/-- The options before the name of a command: is the version asked for, or help? What is left are
the name and its arguments; `none` when an option is not known. -/
def leadingOptions (version help : Bool) : List String → Option (Bool × Bool × List String)
  | [] => some (version, help, [])
  | "--" :: others => some (version, help, others)
  | argument :: others =>
    if asksVersion argument then leadingOptions true help others
    else if argument = "--help" then leadingOptions version true others
    else if Arguments.looksLikeOption argument then none
    else some (version, help, argument :: others)

def line (around : Surroundings) (given : List String) : Command Unit :=
  match leadingOptions false false given with
  | none => leave misuse
  | some (true, _, _) => do
    print ("expo-stallion v" ++ version)
    leave 0
  | some (false, true, _) => leave 0
  | some (false, false, name :: given) => named around name given
  | some (false, false, []) => leave misuse

/-- The ending of the command line, and the session at its end. -/
def runLine (around : Surroundings) (given : List String) (world : World) : Ending × Session :=
  match (line around given).run ⟨world, none, []⟩ with
  | (.ok (), session) => (.exit 0, session)
  | (.error ending, session) => (ending, session)

end Command

end BundleHook
