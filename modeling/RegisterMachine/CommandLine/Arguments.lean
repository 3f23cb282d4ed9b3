import RegisterMachine.Decimal.Natural

/-!
# Arguments

The arguments of the command line have two levels: options for every command, the name of a
command, and the options and the file of that command. The options for every command may also stand
on the second level, and what is given there counts.

Arguments are taken from left to right. An option whose value is an argument of its own takes effect
with the next option or file, or at the end of its level, so a fault of it shows only then; that is
why it is kept as pending. Asking for the version or for help ends the reading at once.
-/

namespace RegisterMachine

inductive CommandName where
  | run
  | trace
  | profile
  | disasm
  deriving DecidableEq, Repr, Inhabited

namespace CommandName

def text : CommandName → String
  | run => "run"
  | trace => "trace"
  | profile => "profile"
  | disasm => "disasm"

/-- The command of a word; three of them have a short name too. -/
def ofWord? : String → Option CommandName
  | "run" | "r" => some run
  | "trace" | "t" => some trace
  | "profile" => some profile
  | "disasm" | "d" => some disasm
  | _ => none

end CommandName

/-- What can be given: an option, or the file of a command. -/
inductive OptionName where
  | file
  | config
  | maxCallDepth
  | verbose
  | callsOnly
  | json
  | limit
  | top
  | version
  | help
  deriving DecidableEq, Repr, Inhabited

namespace OptionName

/-- The long option of a name, at a level: that of a command, or the first one. -/
def ofLong? (level : Option CommandName) : String → Option OptionName
  | "config" => some .config
  | "max-call-depth" => some .maxCallDepth
  | "verbose" => some .verbose
  | "version" => some .version
  | "help" => some .help
  | "calls-only" => if level = some .trace then some .callsOnly else none
  | "json" => if level = some .trace then some .json else none
  | "limit" => if level = some .trace then some .limit else none
  | "top" => if level = some .profile then some .top else none
  | _ => none

def ofShort? : Char → Option OptionName
  | 'v' => some .verbose
  | 'V' => some .version
  | 'h' => some .help
  | _ => none

def takesValue : OptionName → Bool
  | .file | .config | .maxCallDepth | .limit | .top => true
  | .verbose | .callsOnly | .json | .version | .help => false

def isCount : OptionName → Bool
  | .maxCallDepth | .limit | .top => true
  | _ => false

/-- Numbers given on the command line are below this. -/
def countBound : Nat := UInt64.size

def accepts (name : OptionName) (value : String) : Bool :=
  if name.isCount then (Natural.ofText? countBound value).isSome
  else !(name.takesValue && value.isEmpty)

end OptionName

inductive UsageError where
  | unknown (argument : String)
  | missingValue
  | badValue (value : String)
  /-- an option is given twice on one level -/
  | repeated
  /-- an option without value is given one -/
  | needlessValue (value : String)
  | missingFile
  | missingCommand
  deriving DecidableEq, Repr, Inhabited

namespace UsageError

def message : UsageError → String
  | unknown argument => s!"unexpected argument '{argument}'"
  | missingValue => "an option lacks its value"
  | badValue value => s!"invalid value '{value}'"
  | repeated => "an option is given twice"
  | needlessValue value => s!"unexpected value '{value}'"
  | missingFile => "the file is missing"
  | missingCommand => "the command is missing"

end UsageError

/-- What is known of a level while it is read. -/
structure Level where
  /-- the command of the level; none on the first one -/
  command : Option CommandName
  /-- what has taken effect, with the value -/
  given : List (OptionName × String) := []
  /-- what has still to take effect, and its value if that has been read -/
  pending : Option (OptionName × Option String) := none
  hasFile : Bool := false
  /-- there are no more options -/
  onlyFiles : Bool := false
  deriving Inhabited

namespace Level

def give (l : Level) (name : OptionName) (value : String) : Except UsageError Level :=
  if l.given.any fun g => g.1 == name then .error .repeated
  else if name.accepts value then .ok { l with given := l.given ++ [(name, value)] }
  else .error (.badValue value)

def settle (l : Level) : Except UsageError Level :=
  match l.pending with
  | none => .ok l
  | some (_, none) => .error .missingValue
  | some (name, some value) => { l with pending := none }.give name value

def takeFile (l : Level) (argument : String) : Except UsageError Level :=
  if l.command.isNone || l.hasFile then .error (.unknown argument)
  else do
    let l ← l.settle
    return { l with pending := some (.file, some argument), hasFile := true }

def value? (l : Level) (name : OptionName) : Option String :=
  (l.given.find? fun g => g.1 == name).map (·.2)

def count? (l : Level) (name : OptionName) : Option Nat :=
  (l.value? name).bind (Natural.ofText? OptionName.countBound)

def has (l : Level) (name : OptionName) : Bool := (l.value? name).isSome

end Level

inductive LevelEnd where
  | finished (level : Level)
  /-- the name of a command, with the arguments behind it -/
  | command (level : Level) (name : CommandName) (rest : List String)
  | version
  | help

/-- Where an option without value leads: the reading goes on, or it ends. -/
inductive FlagResult where
  | more (level : Level)
  | version
  | help

namespace Level

def takeFlag (l : Level) (name : OptionName) : Except UsageError FlagResult := do
  let l ← l.settle
  match name with
  | .version => return .version
  | .help => return .help
  | name => return .more (← l.give name "")

def takeLetters (l : Level) : List Char → Except UsageError FlagResult
  | [] => .ok (.more l)
  | c :: cs => do
    match OptionName.ofShort? c with
    | none => .error (.unknown (String.singleton c))
    | some name =>
      match ← l.takeFlag name with
      | .more l => l.takeLetters cs
      | result => return result

def takeLong (l : Level) (argument : List Char) : Except UsageError FlagResult := do
  let name := argument.takeWhile (· != '=')
  let value := argument.dropWhile (· != '=')
  match OptionName.ofLong? l.command (String.ofList name), value with
  | none, _ => .error (.unknown (String.ofList argument))
  | some name, [] =>
    if name.takesValue then return .more { ← l.settle with pending := some (name, none) }
    else l.takeFlag name
  | some name, _ :: value =>
    if name.takesValue then return .more (← (← l.settle).give name (String.ofList value))
    else .error (.needlessValue (String.ofList value))

/-- The words behind the command that asks for help name a command at most. -/
def helpEnd : List String → Except UsageError LevelEnd
  | [] => .ok .help
  | [word] =>
    if word = "help" ∨ (CommandName.ofWord? word).isSome then .ok .help else .error (.unknown word)
  | _ :: word :: _ => .error (.unknown word)

def read (l : Level) : List String → Except UsageError LevelEnd
  | [] => .ok (.finished l)
  | argument :: rest =>
    let awaited := match l.pending with
      | some (name, none) => some name
      | _ => none
    if l.onlyFiles then do (← l.takeFile argument).read rest
    else
      match l.command, awaited, CommandName.ofWord? argument with
      | none, none, some name => .ok (.command l name rest)
      | _, _, _ =>
        if l.command.isNone ∧ awaited.isNone ∧ argument = "help" then helpEnd rest
        else
          match argument.toList with
          | ['-', '-'] => { l with onlyFiles := true }.read rest
          | '-' :: '-' :: name => do
            match ← l.takeLong name with
            | .more l => l.read rest
            | .version => return .version
            | .help => return .help
          | '-' :: c :: cs => do
            match ← l.takeLetters (c :: cs) with
            | .more l => l.read rest
            | .version => return .version
            | .help => return .help
          | _ =>
            match awaited with
            | some name => { l with pending := some (name, some argument) }.read rest
            | none => do (← l.takeFile argument).read rest

end Level

structure CommonOptions where
  config : Option String
  maxCallDepth : Option Nat
  deriving DecidableEq, Repr, Inhabited

inductive Command where
  | run (file : String)
  | trace (file : String) (callsOnly json : Bool) (limit : Option Nat)
  | profile (file : String) (top : Nat)
  | disasm (file : String)
  deriving DecidableEq, Repr, Inhabited

inductive Request where
  /-- the version, as that of the program or of a command -/
  | version (command : Option CommandName)
  | help
  | perform (command : Command) (options : CommonOptions)
  deriving DecidableEq, Repr, Inhabited

namespace Request

/-- The number of entries of a report if none is given. -/
def defaultTop : Nat := 10

def commandOf (l : Level) (name : CommandName) : Except UsageError Command :=
  match l.value? .file with
  | none => .error .missingFile
  | some file =>
    .ok (match name with
      | .run => .run file
      | .trace => .trace file (l.has .callsOnly) (l.has .json) (l.count? .limit)
      | .profile => .profile file ((l.count? .top).getD defaultTop)
      | .disasm => .disasm file)

def ofArguments (arguments : List String) : Except UsageError Request := do
  match ← ({ command := none } : Level).read arguments with
  | .version => return .version none
  | .help => return .help
  | .finished _ => .error .missingCommand
  | .command outer name rest =>
    match ← ({ command := some name } : Level).read rest with
    | .version => return .version (some name)
    | .help => return .help
    | .command _ _ _ => .error .missingCommand
    | .finished inner =>
      let inner ← inner.settle
      let command ← commandOf inner name
      let outer ← outer.settle
      return .perform command
        { config := inner.value? .config <|> outer.value? .config
          maxCallDepth := inner.count? .maxCallDepth <|> outer.count? .maxCallDepth }

end Request

end RegisterMachine
