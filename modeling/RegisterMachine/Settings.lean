import RegisterMachine.Debug.Hook
import RegisterMachine.Library.Catalogue
import RegisterMachine.Toml.Reader

/-!
# Settings

Settings come in layers. In a layer every setting may be missing, and so may each of the three
sections that hold them. `merge` puts one layer on top of another: a setting of the upper layer
hides the one below, and a section exists if one of the layers has it.

A layer is only checked for its form. `invalid?` checks values, and is meant for merged layers,
because a layer may make up for another.
-/

namespace RegisterMachine

/-- When the hook of a debugging tool is shown the machine. -/
inductive HookMode where
  | everyInstruction
  | calls
  | count
  deriving DecidableEq, Repr, Inhabited

namespace HookMode

def text : HookMode → String
  | everyInstruction => "every-instruction"
  | calls => "calls"
  | count => "count"

def ofText? : String → Option HookMode
  | "every-instruction" => some everyInstruction
  | "calls" => some calls
  | "count" => some count
  | _ => none

end HookMode

structure RuntimeSettings where
  maxCallDepth : Option Nat := none
  stackCapacity : Option Nat := none
  deriving DecidableEq, Repr, Inhabited

structure DebugSettings where
  hook : Option HookMode := none
  count : Option Nat := none
  traceCallTargets : Option Bool := none
  maxTraceRecords : Option Nat := none
  deriving DecidableEq, Repr, Inhabited

structure LibrarySettings where
  vec3 : Option Bool := none
  vec4 : Option Bool := none
  mat4 : Option Bool := none
  deriving DecidableEq, Repr, Inhabited

structure Settings where
  runtime : Option RuntimeSettings := none
  debug : Option DebugSettings := none
  libraries : Option LibrarySettings := none
  deriving DecidableEq, Repr, Inhabited

def overlay {α : Type} (lower upper : Option α) : Option α :=
  match upper with
  | some a => some a
  | none => lower

namespace RuntimeSettings

def merge (lower upper : RuntimeSettings) : RuntimeSettings :=
  { maxCallDepth := overlay lower.maxCallDepth upper.maxCallDepth
    stackCapacity := overlay lower.stackCapacity upper.stackCapacity }

end RuntimeSettings

namespace DebugSettings

def merge (lower upper : DebugSettings) : DebugSettings :=
  { hook := overlay lower.hook upper.hook
    count := overlay lower.count upper.count
    traceCallTargets := overlay lower.traceCallTargets upper.traceCallTargets
    maxTraceRecords := overlay lower.maxTraceRecords upper.maxTraceRecords }

end DebugSettings

namespace LibrarySettings

def merge (lower upper : LibrarySettings) : LibrarySettings :=
  { vec3 := overlay lower.vec3 upper.vec3
    vec4 := overlay lower.vec4 upper.vec4
    mat4 := overlay lower.mat4 upper.mat4 }

def flag (s : LibrarySettings) : Library → Option Bool
  | .vec3 => s.vec3
  | .vec4 => s.vec4
  | .mat4 => s.mat4

end LibrarySettings

/-- Merges sections that may be missing. A section above a missing one lies on an empty one. -/
def mergeSection {σ : Type} (merge : σ → σ → σ) (empty : σ) (lower upper : Option σ) : Option σ :=
  match upper with
  | none => lower
  | some u => some (merge (lower.getD empty) u)

inductive SettingsDefect where
  /-- the value of one setting is out of range or not understood -/
  | invalidValue (field reason : String)
  /-- settings do not go together -/
  | inconsistent (reason : String)
  deriving DecidableEq, Repr, Inhabited

namespace SettingsDefect

def message : SettingsDefect → String
  | invalidValue field reason => s!"Invalid value for '{field}': {reason}"
  | inconsistent reason => s!"Invalid configuration: {reason}"

end SettingsDefect

namespace Settings

def empty : Settings := {}

def merge (lower upper : Settings) : Settings :=
  { runtime := mergeSection RuntimeSettings.merge {} lower.runtime upper.runtime
    debug := mergeSection DebugSettings.merge {} lower.debug upper.debug
    libraries := mergeSection LibrarySettings.merge {} lower.libraries upper.libraries }

/-- What is wrong with the values: a limit or a count of zero, or a hook that counts without a
count. -/
def invalid? (s : Settings) : Option SettingsDefect :=
  let debug := s.debug.getD {}
  if (s.runtime.getD {}).maxCallDepth = some 0 then
    some (.invalidValue "runtime.max_call_depth" "must be at least 1")
  else if debug.count = some 0 then some (.invalidValue "debug.count" "must be at least 1")
  else if debug.hook = some .count ∧ debug.count.isNone then
    some (.inconsistent "debug.hook = \"count\" requires debug.count")
  else none

def maxCallDepth (s : Settings) : Nat := (s.runtime.bind (·.maxCallDepth)).getD 200

def stackCapacity (s : Settings) : Nat := (s.runtime.bind (·.stackCapacity)).getD 256

def hookMode (s : Settings) : HookMode := (s.debug.bind (·.hook)).getD .everyInstruction

/-- The number of instructions from one showing to the next, if the hook counts. -/
def hookCount (s : Settings) : Nat := max ((s.debug.bind (·.count)).getD 1) 1

def traceCallTargets (s : Settings) : Bool := (s.debug.bind (·.traceCallTargets)).getD true

def maxTraceRecords (s : Settings) : Nat := (s.debug.bind (·.maxTraceRecords)).getD 100000

/-- A library is opened unless it is switched off. -/
def libraryEnabled (s : Settings) (library : Library) : Bool :=
  (s.libraries.bind (·.flag library)).getD true

def trigger (s : Settings) : Trigger :=
  match s.hookMode with
  | .everyInstruction => .everyInstruction
  | .calls => .callsOnly
  | .count => .count (s.hookCount - 1)

end Settings

end RegisterMachine
