import RegisterMachine.CommandLine.Perform

/-!
# The program

Reads the files that a command may need, performs the command on them and prints its output.
-/

namespace RegisterMachine

def FileFault.ofError : IO.Error → FileFault
  | .noFileOrDirectory _ _ _ => .notFound
  | .inappropriateType _ 21 _ => .isDirectory
  | .inappropriateType _ _ _ => .notDirectory
  | .invalidArgument _ 22 _ => .nulInName
  | .invalidArgument _ _ _ => .nameTooLong
  | .permissionDenied _ _ _ => .other "Permission denied (os error 13)"
  | e => .other (toString e)

def readFile (path : String) : IO (Except FileFault String) := do
  try
    let bytes ← IO.FS.readBinFile path
    match String.fromUTF8? bytes with
    | some text => return .ok text
    | none => return .error .notText
  catch e => return .error (FileFault.ofError e)

/-- There is something at a path, and one can get there. -/
def pathExists (path : String) : IO Bool := do
  try
    let _ ← IO.FS.realPath path
    return true
  catch _ => return false

/-- The variables that settings can come from. -/
def variableNames : List String := ["LUNAR_MAX_CALL_DEPTH", "LUNAR_HOOK", "LUNAR_HOOK_COUNT"]

/-- The directory of a user in a list of users, which has a line of seven fields for each. -/
def homeIn? (users number : String) : Option String :=
  (users.splitOn "\n").findSome? fun line =>
    match line.splitOn ":" with
    | [_, _, n, _, _, home, _] => if n = number ∧ home ≠ "" then some home else none
    | _ => none

/-- The number of the user in the description of a process. -/
def userNumber? (status : String) : Option String :=
  (status.splitOn "\n").findSome? fun line =>
    match line.splitOn "\t" with
    | "Uid:" :: n :: _ => some n
    | _ => none

/-- The directory of the user: the one that a variable names, or that of the list of users. -/
def findHome : IO (Option String) := do
  match ← IO.getEnv "HOME" with
  | some home => if home ≠ "" then return some home
  | none => pure ()
  match ← readFile "/etc/passwd", ← readFile "/proc/self/status" with
  | .ok users, .ok status => return (userNumber? status).bind (homeIn? users)
  | _, _ => return none

def findDirectory : IO (Except FileFault String) := do
  try
    return .ok (toString (← IO.currentDir))
  catch e => return .error (FileFault.ofError e)

def filesFor (directory home : Option String) (arguments : List String) : List String :=
  match Request.ofArguments arguments with
  | .ok (.perform command options) => command.sources directory home options
  | _ => []

/-- More steps than a machine can take. -/
def allSteps : Nat := UInt64.size / 4

/-- The surroundings, as far as the command line with the given arguments asks for them. -/
def findSurroundings (arguments : List String) : IO Surroundings := do
  let directory ← findDirectory
  let home ← findHome
  let paths := filesFor directory.toOption home arguments
  let texts ← paths.mapM fun path => return (path, ← readFile path)
  let existing ← paths.filterM pathExists
  let values ← variableNames.mapM fun name => return (name, ← IO.getEnv name)
  return {
    read path := (texts.lookup path).getD (.error .notFound)
    hasPath path := existing.contains path
    getVariable name := (values.lookup name).join
    home? := home
    directory }

end RegisterMachine

open RegisterMachine in
def main (arguments : List String) : IO UInt32 := do
  let output := commandLine (← findSurroundings arguments) allSteps arguments
  IO.print output.text
  IO.eprint output.diagnostics
  return UInt32.ofNat output.exitCode
