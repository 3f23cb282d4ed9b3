import RegisterMachine.RuntimeError
import RegisterMachine.Text.Parts

/-!
# Output

What a command prints, and how it fails. A failure has a message, and below it may have the
messages of what caused it, the nearest cause first.
-/

namespace RegisterMachine

structure Failure where
  message : String
  causes : List String := []
  deriving DecidableEq, Repr, Inhabited

namespace Failure

/-- A text with `first` in front of its first line and `others` in front of the others. -/
def indented (first others : String) (text : String) : String :=
  first ++ String.ofList (('\n' :: others.toList).intercalate (partsBetween '\n' text.toList))

/-- Several causes are numbered from zero. -/
def causeLines : Nat → List String → List String
  | _, [] => []
  | n, cause :: causes =>
    let number := toString n
    let padding := String.ofList (List.replicate (5 - number.length) ' ')
    indented (padding ++ number ++ ": ") "       " cause :: causeLines (n + 1) causes

def report (f : Failure) : String :=
  "Error: " ++ f.message ++
    match f.causes with
    | [] => ""
    | [cause] => "\n\nCaused by:\n" ++ indented "    " "    " cause
    | causes => "\n\nCaused by:\n" ++ "\n".intercalate (causeLines 0 causes)

end Failure

/-- The messages of what caused an error: a located error is caused by the one that it locates. -/
def RuntimeError.causes : RuntimeError → List String
  | .located _ _ source => source.message :: source.causes
  | _ => []

def Failure.ofRuntimeError (e : RuntimeError) : Failure := ⟨e.message, e.causes⟩

inductive Ending where
  | done
  | failed (f : Failure)
  /-- the arguments were not understood -/
  | misused (message : String)
  /-- a limit was reached behind which the program cannot go on -/
  | aborted
  deriving Inhabited

structure Output where
  text : String
  /-- lines that are not part of the result -/
  notes : List String := []
  ending : Ending := .done
  deriving Inhabited

namespace Output

def abortedAfter (text : String) : Output := { text, ending := .aborted }

def exitCode (o : Output) : Nat :=
  match o.ending with
  | .done => 0
  | .failed _ => 1
  | .misused _ => 2
  | .aborted => 101

def diagnostics (o : Output) : String :=
  let ending := match o.ending with
    | .done => []
    | .failed f => [f.report]
    | .misused message => ["error: " ++ message]
    | .aborted => []
  String.join ((o.notes ++ ending).map (· ++ "\n"))

end Output

end RegisterMachine
