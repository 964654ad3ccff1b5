import BundleHook.Settings.Check

/-!
# Configuration

What a run does, from nested data or from the environment.
-/

namespace BundleHook

/-- The least level of messages that are shown. -/
inductive LogLevel where
  | debug
  | info
  | warning
  | error
  deriving DecidableEq, Repr

def LogLevel.label : LogLevel → String
  | debug => "DEBUG"
  | info => "INFO"
  | warning => "WARNING"
  | error => "ERROR"

def LogLevel.byLabel : List (String × LogLevel) :=
  [LogLevel.debug, .info, .warning, .error].map fun level => (level.label, level)

/-- Which platforms are patched, and whether files are written. -/
structure PatchSettings where
  androidEnabled : Bool
  iosEnabled : Bool
  dryRun : Bool
  deriving DecidableEq, Repr

/-- The configuration of a run. -/
structure Config where
  logLevel : LogLevel
  jsonLogs : Bool
  patch : PatchSettings
  projectId : Option String
  appToken : Option String
  deriving DecidableEq, Repr

/-- The configuration of patching when nothing is said: both platforms, files written. -/
def PatchSettings.default : PatchSettings := ⟨true, true, false⟩

def PatchSettings.check : Check PatchSettings := Check.record fun fields =>
  PatchSettings.mk
    <$> Check.fieldOr true ["android_enabled"] Check.flag fields
    <*> Check.fieldOr true ["ios_enabled"] Check.flag fields
    <*> Check.fieldOr false ["dry_run"] Check.flag fields

/-- The configuration from data; fields of other names do not count. -/
def Config.check : Check Config := Check.record fun fields =>
  Config.mk
    <$> Check.fieldOr .info ["log_level"] (Check.word .notAllowed LogLevel.byLabel) fields
    <*> Check.fieldOr false ["json_logs"] Check.flag fields
    <*> Check.fieldOr .default ["patch"] PatchSettings.check fields
    <*> Check.fieldOr none ["project_id"] (Check.orNull Check.text) fields
    <*> Check.fieldOr none ["app_token"] (Check.orNull Check.text) fields

/-! ## The environment -/

/-- The variables that are set. -/
abbrev Environment := List (String × String)

/-- The capital of a letter, where it is an ASCII letter: also those of the dotless i and of the
long s. -/
def capital (c : Char) : Char :=
  if c = '\u0131' then 'I' else if c = '\u017f' then 'S' else c.toUpper

namespace Environment

/-- Is a variable set to a word for yes? Case does not count. -/
def flag (env : Environment) (name default : String) : Bool :=
  ["1", "true", "yes"].contains (((env.lookup name).getD default).map Char.toLower)

def nonempty? (env : Environment) (name : String) : Option String :=
  (env.lookup name).bind fun value => if value.isEmpty then none else some value

/-- The configuration that the environment gives; only a level of no known name is refused. -/
def config (env : Environment) : Checked Config :=
  let level := ((env.lookup "STALLION_LOG_LEVEL").getD "INFO").map capital
  let patch : PatchSettings :=
    ⟨env.flag "STALLION_PATCH_ANDROID" "true", env.flag "STALLION_PATCH_IOS" "true",
      env.flag "STALLION_DRY_RUN" "false"⟩
  match LogLevel.byLabel.lookup level with
  | some logLevel =>
    .fits ⟨logLevel, env.flag "STALLION_JSON_LOGS" "false", patch,
      env.nonempty? "STALLION_PROJECT_ID", env.nonempty? "STALLION_APP_TOKEN"⟩
  | none => .wrong [⟨.notAllowed, [.field "log_level"]⟩]

end Environment

end BundleHook
