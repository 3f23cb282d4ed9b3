import RegisterMachine.Decimal.Natural
import RegisterMachine.Files.Surroundings
import RegisterMachine.Settings.Blank
import RegisterMachine.Settings.Document

/-!
# Finding the settings

Four layers make up the settings, each on top of the one before: what is built in, the file of the
user, the file of the project, and variables. The file of a project is the one in the directory
that one starts from or in the nearest directory above that has one, whether it is right or not.
The file of the user is a help only: if there is none, or it cannot be read, it counts as empty.
-/

namespace RegisterMachine

inductive SettingsError where
  | notFound (path : String)
  | unreadable (fault : FileFault)
  /-- the file does not hold settings -/
  | malformed (path : String)
  | invalid (defect : SettingsDefect)
  deriving DecidableEq, Repr, Inhabited

namespace SettingsError

def message : SettingsError → String
  | notFound path => s!"Configuration file not found: {path}"
  | unreadable fault => s!"Failed to read configuration file: {fault.message}"
  | malformed path => s!"Invalid TOML syntax in {path}"
  | invalid defect => defect.message

/-- The message, and that of the error behind it if there is one. -/
def messages (e : SettingsError) : List String :=
  match e with
  | unreadable fault => [e.message, fault.message]
  | e => [e.message]

end SettingsError

/-- The settings that were found, and the directory of the project if there is one. -/
structure Configuration where
  settings : Settings
  projectRoot : Option String
  deriving DecidableEq, Repr, Inhabited

namespace Settings

def ofFile (s : Surroundings) (path : String) : Except SettingsError Settings :=
  match s.read path with
  | .error .notFound => .error (.notFound path)
  | .error fault => .error (.unreadable fault)
  | .ok text =>
    match ofText? text with
    | some settings => .ok settings
    | none => .error (.malformed path)

/-- The value of a variable that has to be a natural number below `bound`. -/
def countVariable (s : Surroundings) (bound : Nat) (name : String) :
    Except SettingsError (Option Nat) :=
  match s.getVariable name with
  | none => .ok none
  | some text =>
    match Natural.ofText? bound (trimBlanks text) with
    | some n => .ok (some n)
    | none => .error (.invalid (.invalidValue name s!"expected a positive integer, got '{text}'"))

/-- The value of a variable that has to be the mode of a hook. -/
def modeVariable (s : Surroundings) (name : String) : Except SettingsError (Option HookMode) :=
  match s.getVariable name with
  | none => .ok none
  | some text =>
    match HookMode.ofText? (trimBlanks text) with
    | some mode => .ok (some mode)
    | none =>
      .error (.invalid (.invalidValue name
        s!"must be 'every-instruction', 'calls', or 'count', got '{text}'"))

/-- The layer of the variables. It has a section only if a variable is in it. -/
def ofVariables (s : Surroundings) : Except SettingsError Settings := do
  let maxCallDepth ← countVariable s UInt64.size "LUNAR_MAX_CALL_DEPTH"
  let hook ← modeVariable s "LUNAR_HOOK"
  let count ← countVariable s UInt32.size "LUNAR_HOOK_COUNT"
  return {
    runtime := if maxCallDepth.isSome then some { maxCallDepth } else none
    debug := if hook.isSome || count.isSome then some { hook, count } else none }

def userFile? (home : Option String) : Option String :=
  home.map fun home => Path.join (Path.join home ".lunar") "config.toml"

/-- The layer of the user, from a file that is given or from the one in the user's directory. -/
def ofUser (s : Surroundings) (path : Option String) : Settings :=
  match path <|> userFile? s.home? with
  | none => empty
  | some path => if s.hasPath path then (ofFile s path).toOption.getD empty else empty

end Settings

namespace Configuration

def projectFile : String := "lunar.toml"

def assemble (s : Surroundings) (userFile : Option String) (project : Settings)
    (projectRoot : Option String) : Except SettingsError Configuration := do
  let top ← Settings.ofVariables s
  let settings := ((Settings.ofUser s userFile).merge project).merge top
  match settings.invalid? with
  | some defect => .error (.invalid defect)
  | none => return { settings, projectRoot }

def projectRoot? (s : Surroundings) (directory : String) : Option String :=
  (Path.ancestors directory).find? fun d => s.hasPath (Path.join d projectFile)

def ofDirectory (s : Surroundings) (userFile : Option String) (directory : String) :
    Except SettingsError Configuration := do
  match projectRoot? s directory with
  | none => assemble s userFile .empty none
  | some root =>
    let project ← Settings.ofFile s (Path.join root projectFile)
    assemble s userFile project (some root)

def ofFile (s : Surroundings) (userFile : Option String) (path : String) :
    Except SettingsError Configuration := do
  let project ← Settings.ofFile s path
  assemble s userFile project (Path.parent? path)

end Configuration

end RegisterMachine
