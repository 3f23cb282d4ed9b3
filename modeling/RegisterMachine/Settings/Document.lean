import RegisterMachine.Settings

/-!
# Settings in documents

A layer of settings is a TOML document with at most the tables `runtime`, `debug` and `libraries`,
and in each of them at most the settings of that section. Anything unknown is refused, and so is a
value of another type or out of range.

A section may also be an array with a value for every setting in the order of declaration, behind
which any values may follow, and the mode of the hook may be the only key of a table with nothing
under it.
-/

namespace RegisterMachine

namespace Toml

def readBoolean : Toml → Option Bool
  | boolean b => some b
  | _ => none

def readBelow (bound : Nat) : Toml → Option Nat
  | integer n => if 0 ≤ n ∧ n < bound then some n.toNat else none
  | _ => none

def readSize (v : Toml) : Option Nat := v.readBelow UInt64.size

def isEmptyCollection : Toml → Bool
  | array items => items.isEmpty
  | table _ entries => entries.isEmpty
  | _ => false

def readHookMode : Toml → Option HookMode
  | string s => HookMode.ofText? s
  | table _ [(mode, payload)] =>
    if payload.isEmptyCollection then HookMode.ofText? mode else none
  | _ => none

end Toml

namespace RuntimeSettings

def set (s : RuntimeSettings) (key : String) (v : Toml) : Option RuntimeSettings :=
  match key with
  | "max_call_depth" => do return { s with maxCallDepth := some (← v.readSize) }
  | "stack_capacity" => do return { s with stackCapacity := some (← v.readSize) }
  | _ => none

def keys : List String := ["max_call_depth", "stack_capacity"]

end RuntimeSettings

namespace DebugSettings

def set (s : DebugSettings) (key : String) (v : Toml) : Option DebugSettings :=
  match key with
  | "hook" => do return { s with hook := some (← v.readHookMode) }
  | "count" => do return { s with count := some (← v.readBelow UInt32.size) }
  | "trace_call_targets" => do return { s with traceCallTargets := some (← v.readBoolean) }
  | "max_trace_records" => do return { s with maxTraceRecords := some (← v.readSize) }
  | _ => none

def keys : List String := ["hook", "count", "trace_call_targets", "max_trace_records"]

end DebugSettings

namespace LibrarySettings

def set (s : LibrarySettings) (key : String) (v : Toml) : Option LibrarySettings :=
  match key with
  | "vec3" => do return { s with vec3 := some (← v.readBoolean) }
  | "vec4" => do return { s with vec4 := some (← v.readBoolean) }
  | "mat4" => do return { s with mat4 := some (← v.readBoolean) }
  | _ => none

def keys : List String := ["vec3", "vec4", "mat4"]

end LibrarySettings

/-- Reads a section, given its settings in their order and a function that reads one of them. -/
def readSection {σ : Type} (empty : σ) (set : σ → String → Toml → Option σ) (keys : List String) :
    Toml → Option σ
  | .table _ entries => entries.foldlM (fun s (key, v) => set s key v) empty
  | .array items =>
    if items.length < keys.length then none
    else (keys.zip items).foldlM (fun s (key, v) => set s key v) empty
  | _ => none

namespace Settings

/-- Reads one of the three sections. -/
def set (s : Settings) (key : String) (v : Toml) : Option Settings :=
  match key with
  | "runtime" => do
    let section_ ← readSection {} RuntimeSettings.set RuntimeSettings.keys v
    return { s with runtime := some section_ }
  | "debug" => do
    let section_ ← readSection {} DebugSettings.set DebugSettings.keys v
    return { s with debug := some section_ }
  | "libraries" => do
    let section_ ← readSection {} LibrarySettings.set LibrarySettings.keys v
    return { s with libraries := some section_ }
  | _ => none

/-- The layer that a document holds; `none` if the document does not have the form of one. -/
def ofText? (text : String) : Option Settings := do
  (← Toml.ofText? text).foldlM (fun s (key, v) => s.set key v) empty

end Settings

end RegisterMachine
