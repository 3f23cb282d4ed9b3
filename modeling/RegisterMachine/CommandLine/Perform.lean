import RegisterMachine.Chunk.Listing
import RegisterMachine.CommandLine.Arguments
import RegisterMachine.CommandLine.Output
import RegisterMachine.Debug.Profiler
import RegisterMachine.Debug.Tracer
import RegisterMachine.Library.Evaluation
import RegisterMachine.Library.Opening
import RegisterMachine.Settings.Configuration
import RegisterMachine.VirtualMachine

/-!
# Commands

What the commands do: `run` runs a chunk and prints its results, `trace` and `profile` run it under
a hook and print what the hook has noted, also if the run fails, and `disasm` lists it. The chunk is
read before the settings, and `disasm` does without settings.
-/

namespace RegisterMachine

def Json.ReadError.message : Json.ReadError → String
  | .malformed => "the text is not JSON"
  | .unfinished => "the text ends too early"
  | .mismatched => "the value is not a chunk"

/-- The machine of the command line knows no functions but the libraries. -/
def Host.standard : Host := Host.withLibraries fun _ _ w => (.ok .nil, w)

namespace Command

def readChunk (s : Surroundings) (file : String) : Except Failure Chunk :=
  match s.read file with
  | .error fault => .error ⟨"Failed to read file: " ++ file, [fault.message]⟩
  | .ok text =>
    match Chunk.ofText text with
    | .error e => .error ⟨"Failed to parse chunk: " ++ file, [e.message]⟩
    | .ok chunk => .ok chunk

/-- The settings, from the file that is given or from the project of the current directory. -/
def readConfiguration (s : Surroundings) (options : CommonOptions) :
    Except Failure Configuration :=
  match options.config with
  | some path =>
    (Configuration.ofFile s none path).mapError fun e =>
      ⟨"Failed to load config: " ++ path, e.messages⟩
  | none =>
    match s.directory with
    | .error fault => .error ⟨"Failed to read current directory", [fault.message]⟩
    | .ok directory =>
      (Configuration.ofDirectory s none directory).mapError fun e =>
        ⟨"Failed to load lunar.toml", e.messages⟩

/-- The machine on which a command runs a chunk; `none` if there is none with these settings. -/
def prepare? (settings : Settings) (options : CommonOptions) : Option (VirtualMachine Unit) := do
  let vm ← VirtualMachine.ofSettings? settings
  let vm := match options.maxCallDepth with
    | some depth => vm.setMaxCallDepth depth
    | none => vm
  return vm.withWorld (vm.world.openLibrariesWith settings)

def endingOf : CallResult → Ending
  | .ok _ => .done
  | .error e => .failed (.ofRuntimeError e)
  | .stuck => .failed ⟨"the machine is stuck", []⟩
  | .outOfSteps => .failed ⟨"the machine has taken all its steps", []⟩

def resultLine : List Value → String
  | [] => ""
  | values => "\t".intercalate (values.map Value.text) ++ "\n"

def resultText : CallResult → String
  | .ok values => resultLine values
  | _ => ""

def runOn (steps : Nat) (chunk : Chunk) (_ : Settings) (vm : VirtualMachine Unit) :
    Except Failure Output :=
  let result := (vm.run Host.standard steps chunk).2
  .ok { text := resultText result, ending := endingOf result }

/-- Makes a closure over a chunk and calls it under a hook. Gives the notes of the hook. -/
def observe {σ : Type} (steps : Nat) (vm : VirtualMachine Unit) (chunk : Chunk) (h : ArmedHook σ) :
    Except Failure (σ × CallResult) :=
  match vm.world.load chunk with
  | .error e => .error (.ofRuntimeError e)
  | .ok (world, main) =>
    let (_, h, result) := (vm.withWorld world).callWithHook Host.standard steps h main []
    .ok (h.notes, result)

/-- The line for a record, unless it cannot be printed. -/
def recordLine? (json : Bool) (r : TraceRecord) : Option String :=
  if json then some r.toJson.compact else r.line?

def droppedNotes (dropped : Nat) : List String :=
  if dropped = 0 then [] else [toString dropped ++ " records dropped (limit reached)"]

/-- The output of a trace, given its lines. It ends in front of the first line that is missing. -/
def traceOutput (lines : List (Option String)) (notes : List String) (ending : Ending) : Output :=
  let text := String.join (((lines.takeWhile Option.isSome).filterMap id).map (· ++ "\n"))
  if lines.all Option.isSome then { text, notes, ending } else .abortedAfter text

def freshTracer (settings : Settings) (limit : Option Nat) : Tracer :=
  .new (limit.getD settings.maxTraceRecords) settings.traceCallTargets

def traceTrigger (settings : Settings) (callsOnly : Bool) : Trigger :=
  if callsOnly then .callsOnly else settings.trigger

def traceOn (steps : Nat) (callsOnly json : Bool) (limit : Option Nat) (chunk : Chunk)
    (settings : Settings) (vm : VirtualMachine Unit) : Except Failure Output := do
  let (tracer, result) ← observe steps vm chunk
    ⟨Tracer.hook, traceTrigger settings callsOnly, freshTracer settings limit⟩
  return traceOutput (tracer.records.toList.map (recordLine? json)) (droppedNotes tracer.dropped)
    (endingOf result)

def profileOn (steps top : Nat) (chunk : Chunk) (_ : Settings) (vm : VirtualMachine Unit) :
    Except Failure Output := do
  let (profiler, result) ←
    observe steps vm chunk ⟨Profiler.hook, .everyInstruction, .new true⟩
  return { text := profiler.report top, ending := endingOf result }

/-- Goes on with a chunk, the settings and a machine for them, which are got in this order. -/
def withMachine (s : Surroundings) (options : CommonOptions) (file : String)
    (go : Chunk → Settings → VirtualMachine Unit → Except Failure Output) :
    Except Failure Output := do
  let chunk ← readChunk s file
  let settings := (← readConfiguration s options).settings
  let some vm := prepare? settings options | return .abortedAfter ""
  go chunk settings vm

def perform (s : Surroundings) (steps : Nat) (options : CommonOptions) :
    Command → Except Failure Output
  | .run file => withMachine s options file (runOn steps)
  | .trace file callsOnly json limit =>
    withMachine s options file (traceOn steps callsOnly json limit)
  | .profile file top => withMachine s options file (profileOn steps top)
  | .disasm file => do
    let chunk ← readChunk s file
    return { text := chunk.listing }

def sources (directory home : Option String) (options : CommonOptions) : Command → List String
  | .disasm file => [file]
  | .run file | .trace file _ _ _ | .profile file _ =>
    let project := match options.config with
      | some path => [path]
      | none =>
        (directory.toList.flatMap Path.ancestors).map (Path.join · Configuration.projectFile)
    file :: project ++ (Settings.userFile? home).toList

end Command

namespace Request

def versionNumber : String := "0.1.0"

def versionText (command : Option CommandName) : String :=
  let program := match command with
    | none => "lunar"
    | some name => "lunar-" ++ name.text
  program ++ " " ++ versionNumber ++ "\n"

def helpText : String :=
  "Usage: lunar [--config FILE] [--max-call-depth N] [--verbose] COMMAND\n\n"
    ++ "run FILE                                         run a chunk and print its results\n"
    ++ "trace FILE [--calls-only] [--json] [--limit N]   run a chunk and print its instructions\n"
    ++ "profile FILE [--top N]                           run a chunk and count its instructions\n"
    ++ "disasm FILE                                      list a chunk\n"

def output (s : Surroundings) (steps : Nat) : Request → Output
  | .version command => { text := versionText command }
  | .help => { text := helpText }
  | .perform command options =>
    match command.perform s steps options with
    | .error failure => { text := "", ending := .failed failure }
    | .ok output => output

end Request

def commandLine (s : Surroundings) (steps : Nat) (arguments : List String) : Output :=
  match Request.ofArguments arguments with
  | .error e => { text := "", ending := .misused e.message }
  | .ok request => request.output s steps

end RegisterMachine
