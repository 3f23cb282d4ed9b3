import RegisterMachine.Json.Basic
import RegisterMachine.Settings

/-!
# Settings as JSON

A layer of settings as an object. Settings and sections that are missing are left out.
-/

namespace RegisterMachine

def optionalMember {α : Type} (key : String) (toJson : α → Json) : Option α → List (String × Json)
  | some a => [(key, toJson a)]
  | none => []

def RuntimeSettings.toJson (s : RuntimeSettings) : Json :=
  Json.record (optionalMember "max_call_depth" Json.ofNat s.maxCallDepth
    ++ optionalMember "stack_capacity" Json.ofNat s.stackCapacity)

def DebugSettings.toJson (s : DebugSettings) : Json :=
  Json.record (optionalMember "hook" (fun m => Json.ofString m.text) s.hook
    ++ optionalMember "count" Json.ofNat s.count
    ++ optionalMember "trace_call_targets" Json.bool s.traceCallTargets
    ++ optionalMember "max_trace_records" Json.ofNat s.maxTraceRecords)

def LibrarySettings.toJson (s : LibrarySettings) : Json :=
  Json.record (optionalMember "vec3" Json.bool s.vec3 ++ optionalMember "vec4" Json.bool s.vec4
    ++ optionalMember "mat4" Json.bool s.mat4)

def Settings.toJson (s : Settings) : Json :=
  Json.record (optionalMember "runtime" RuntimeSettings.toJson s.runtime
    ++ optionalMember "debug" DebugSettings.toJson s.debug
    ++ optionalMember "libraries" LibrarySettings.toJson s.libraries)

end RegisterMachine
