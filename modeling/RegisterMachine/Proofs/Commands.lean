import Mathlib.Data.List.TakeWhile
import RegisterMachine.CommandLine.Perform
import RegisterMachine.Proofs.TraceLimits

/-!
# The commands that execute a chunk

`run`, `trace` and `profile` make the same preparations in the same order, and then call the same
closure on the same machine (`Preparation`). A hook does not change the course of a call, so they
end alike, and the tracer and the profiler are shown the same boundaries. What is left to say is
what each of them makes of the snapshots: the tracer keeps the records of the first ones and counts
the others, and the profiler counts all of them.

There is one exception. A line of a trace is indented by its depth, and an indentation can be too
large to be printed. The trace then ends in front of that line, whatever the call has come to.
-/

namespace RegisterMachine

/-! ### What the profiler counts -/

namespace Profiler

theorem observe_enabled {p : Profiler} (h : p.enabled = true) {s : Snapshot} (hs : s.IsDecoded) :
    (p.observe s).enabled = true ∧ (p.observe s).total = p.total + 1 := by
  obtain ⟨op, hop⟩ := hs
  simp only [observe, hop, record, h, Bool.not_true, Bool.false_eq_true, if_false]
  split <;> exact ⟨rfl, rfl⟩

theorem foldl_observe {p : Profiler} (henabled : p.enabled = true) {snapshots : List Snapshot}
    (h : ∀ s ∈ snapshots, s.IsDecoded) :
    (snapshots.foldl (fun p s => p.observe s) p).enabled = true ∧
    (snapshots.foldl (fun p s => p.observe s) p).total = p.total + snapshots.length := by
  induction snapshots generalizing p with
  | nil => exact ⟨henabled, rfl⟩
  | cons s snapshots ih =>
    obtain ⟨hs, hrest⟩ := List.forall_mem_cons.1 h
    obtain ⟨henabled', htotal'⟩ := observe_enabled henabled hs
    obtain ⟨hlast, htotal⟩ := ih henabled' hrest
    refine ⟨hlast, ?_⟩
    rw [List.foldl_cons, htotal, htotal', List.length_cons]
    omega

def heading (total : Nat) : String := "Total instructions executed: " ++ toString total ++ "\n\n"

theorem report_eq_heading {p : Profiler} (h : p.enabled = true) (n : Nat) :
    ∃ rest, p.report n = heading p.total ++ rest := by
  have hextend {front text : String} (hfront : ∃ rest, text = front ++ rest) (more : String) :
      ∃ rest, text ++ more = front ++ rest := by
    obtain ⟨rest, rfl⟩ := hfront
    exact ⟨rest ++ more, String.append_assoc⟩
  have hfront : ∃ rest, heading p.total = heading p.total ++ rest := ⟨"", String.append_empty.symm⟩
  have hreport : (!p.enabled) ≠ true := by
    rw [h]
    decide
  rw [report, if_neg hreport]
  dsimp only
  by_cases hempty : p.opcodes.entries.isEmpty = true
  · rw [if_pos hempty]
    exact hextend hfront _
  · rw [if_neg hempty]
    exact hextend (hextend (hextend (hextend (hextend hfront _) _) _) _) _

end Profiler

namespace Command

/-! ### Preparations -/

/-- What the preparations of a command that executes a chunk come to. -/
inductive Preparation where
  | refused (failure : Failure)
  /-- there is no machine with the settings -/
  | impossible
  /-- the machine that is going to call the closure `main` -/
  | ready (settings : Settings) (vm : VirtualMachine Unit) (main : Value)

/-- The chunk is read, then the settings, then the machine is made, and then the chunk is loaded. -/
def preparation (s : Surroundings) (options : CommonOptions) (file : String) : Preparation :=
  match readChunk s file with
  | .error failure => .refused failure
  | .ok chunk =>
    match readConfiguration s options with
    | .error failure => .refused failure
    | .ok configuration =>
      match prepare? configuration.settings options with
      | none => .impossible
      | some vm =>
        match vm.world.load chunk with
        | .error e => .refused (.ofRuntimeError e)
        | .ok (world, main) => .ready configuration.settings (vm.withWorld world) main

/-- The output of a command that executes a chunk, by what it puts out if the chunk is executed. -/
def Preparation.output (execute : Settings → VirtualMachine Unit → Value → Output) :
    Preparation → Output
  | refused failure => { text := "", ending := .failed failure }
  | impossible => .abortedAfter ""
  | ready settings vm main => execute settings vm main

section

variable (s : Surroundings) (steps : Nat) (options : CommonOptions) (file : String)

/-- All commands that execute a chunk go on in the same way once they know what they do with a
machine that is prepared, and fail alike before. -/
theorem output_eq (go : Chunk → Settings → VirtualMachine Unit → Except Failure Output)
    {execute : Settings → VirtualMachine Unit → Value → Output} {command : Command}
    (hcommand : command.perform s steps options = withMachine s options file go)
    (hrefused : ∀ chunk settings vm e, vm.world.load chunk = .error e →
      go chunk settings vm = .error (.ofRuntimeError e) ∨
        go chunk settings vm = .ok { text := "", ending := .failed (.ofRuntimeError e) })
    (hready : ∀ chunk settings vm world main, vm.world.load chunk = .ok (world, main) →
      go chunk settings vm = .ok (execute settings (vm.withWorld world) main)) :
    (Request.perform command options).output s steps =
      (preparation s options file).output execute := by
  rw [Request.output, hcommand, withMachine, preparation]
  cases readChunk s file with
  | error failure => rfl
  | ok chunk =>
    cases readConfiguration s options with
    | error failure => rfl
    | ok configuration =>
      simp only [bind, Except.bind]
      cases prepare? configuration.settings options with
      | none => rfl
      | some vm =>
        dsimp only
        cases hload : vm.world.load chunk with
        | error e =>
          rcases hrefused chunk configuration.settings vm e hload with h | h <;> rw [h] <;> rfl
        | ok loaded =>
          rw [hready chunk configuration.settings vm loaded.1 loaded.2 hload]
          rfl

theorem output_run :
    (Request.perform (.run file) options).output s steps =
      (preparation s options file).output fun _ vm main =>
        let result := (vm.machine.call Host.standard steps main []).2
        { text := resultText result, ending := endingOf result } := by
  refine output_eq s steps options file (runOn steps) rfl ?_ ?_
  · intro chunk settings vm e hload
    right
    simp only [runOn, VirtualMachine.run, hload]
    rfl
  · intro chunk settings vm world main hload
    have hcall : ((vm.withWorld world).call Host.standard steps main []).2 =
        ((vm.withWorld world).machine.call Host.standard steps main []).2 :=
      congrArg Prod.snd (VirtualMachine.call_eq Host.standard steps (vm.withWorld world) main [])
    simp only [runOn, VirtualMachine.run, hload, hcall]

theorem output_trace (callsOnly json : Bool) (limit : Option Nat) :
    (Request.perform (.trace file callsOnly json limit) options).output s steps =
      (preparation s options file).output fun settings vm main =>
        let h : ArmedHook Tracer :=
          ⟨Tracer.hook, traceTrigger settings callsOnly, freshTracer settings limit⟩
        let tracer := (vm.machine.callHooked Host.standard steps h main []).1.notes
        traceOutput (tracer.records.toList.map (recordLine? json)) (droppedNotes tracer.dropped)
          (endingOf (vm.machine.call Host.standard steps main []).2) := by
  refine output_eq s steps options file (traceOn steps callsOnly json limit) rfl ?_ ?_
  · intro chunk settings vm e hload
    left
    simp only [traceOn, observe, hload]
    rfl
  · intro chunk settings vm world main hload
    simp only [traceOn, observe, hload]
    rw [← Machine.callHooked_snd]
    rfl

theorem output_profile (top : Nat) :
    (Request.perform (.profile file top) options).output s steps =
      (preparation s options file).output fun _ vm main =>
        let h : ArmedHook Profiler := ⟨Profiler.hook, .everyInstruction, .new true⟩
        let profiler := (vm.machine.callHooked Host.standard steps h main []).1.notes
        { text := profiler.report top
          ending := endingOf (vm.machine.call Host.standard steps main []).2 } := by
  refine output_eq s steps options file (profileOn steps top) rfl ?_ ?_
  · intro chunk settings vm e hload
    left
    simp only [profileOn, observe, hload]
    rfl
  · intro chunk settings vm world main hload
    simp only [profileOn, observe, hload]
    rw [← Machine.callHooked_snd]
    rfl

end

/-! ### Traces -/

def Fits (json : Bool) (r : TraceRecord) : Prop :=
  json = true ∨ 2 * (r.depth - 1) ≤ TraceRecord.indentLimit

instance (json : Bool) (r : TraceRecord) : Decidable (Fits json r) :=
  inferInstanceAs (Decidable (_ ∨ _))

def recordText (json : Bool) (r : TraceRecord) : String :=
  if json then r.toJson.compact else r.line

def traceText (json : Bool) (records : List TraceRecord) : String :=
  String.join (records.map fun r => recordText json r ++ "\n")

theorem recordLine?_eq (json : Bool) (r : TraceRecord) :
    recordLine? json r = if Fits json r then some (recordText json r) else none := by
  cases json with
  | true => simp [recordLine?, recordText, Fits]
  | false => simp [recordLine?, recordText, Fits, TraceRecord.line?]

theorem isSome_recordLine? (json : Bool) (r : TraceRecord) :
    (recordLine? json r).isSome = decide (Fits json r) := by
  rw [recordLine?_eq]
  by_cases h : Fits json r
  · simp [h]
  · simp [h]

/-- The lines in front of the first one that cannot be printed. -/
theorem filterMap_takeWhile_lines (json : Bool) (records : List TraceRecord) :
    ((records.map (recordLine? json)).takeWhile Option.isSome).filterMap id =
      (records.takeWhile fun r => Fits json r).map (recordText json) := by
  induction records with
  | nil => rfl
  | cons r records ih =>
    rw [List.map_cons, List.takeWhile_cons, List.takeWhile_cons, isSome_recordLine?]
    by_cases h : Fits json r
    · have hline : id (recordLine? json r) = some (recordText json r) := by
        rw [id, recordLine?_eq, if_pos h]
      rw [if_pos (decide_eq_true h), if_pos (decide_eq_true h), List.filterMap_cons_some hline, ih,
        List.map_cons]
    · rw [if_neg (by simp [h]), if_neg (by simp [h])]
      rfl

/-- A trace prints a line for each record and ends as the call has ended, unless it comes to a
record whose line cannot be printed. -/
theorem traceOutput_eq (json : Bool) (records : List TraceRecord) (notes : List String)
    (ending : Ending) :
    traceOutput (records.map (recordLine? json)) notes ending =
      if ∀ r ∈ records, Fits json r then { text := traceText json records, notes, ending }
      else .abortedAfter (traceText json (records.takeWhile fun r => Fits json r)) := by
  have hall : (records.map (recordLine? json)).all Option.isSome = true ↔
      ∀ r ∈ records, Fits json r := by
    simp only [List.all_map, List.all_eq_true, Function.comp_apply, isSome_recordLine?,
      decide_eq_true_eq]
  rw [traceOutput, filterMap_takeWhile_lines, List.map_map]
  by_cases hfit : ∀ r ∈ records, Fits json r
  · have hwhole : (records.takeWhile fun r => Fits json r) = records :=
      List.takeWhile_eq_self_iff.2 fun r hr => decide_eq_true (hfit r hr)
    rw [if_pos (hall.2 hfit), if_pos hfit, hwhole]
    rfl
  · rw [if_neg (mt hall.1 hfit), if_neg hfit]
    rfl

/-! ### Agreement -/

def traced (settings : Settings) (callsOnly : Bool) (vm : VirtualMachine Unit) (main : Value)
    (steps : Nat) : List Snapshot :=
  (traceTrigger settings callsOnly).selected vm.machine.executed
    (vm.machine.boundaries Host.standard main [] steps)

def keptRecords (settings : Settings) (limit : Option Nat) (snapshots : List Snapshot) :
    List TraceRecord :=
  (snapshots.take (limit.getD settings.maxTraceRecords)).filterMap
    (freshTracer settings limit).record?

def droppedCount (settings : Settings) (limit : Option Nat) (snapshots : List Snapshot) : Nat :=
  snapshots.length - limit.getD settings.maxTraceRecords

section

variable {settings : Settings} {vm : VirtualMachine Unit} {main : Value}

theorem length_keptRecords_add {snapshots : List Snapshot} (h : ∀ s ∈ snapshots, s.IsDecoded)
    (limit : Option Nat) :
    (keptRecords settings limit snapshots).length + droppedCount settings limit snapshots =
      snapshots.length := by
  have hkept : (keptRecords settings limit snapshots).length =
      (snapshots.take (limit.getD settings.maxTraceRecords)).length :=
    Tracer.length_filterMap_record? _ fun s hs => h s (List.mem_of_mem_take hs)
  rw [hkept, droppedCount, List.length_take]
  omega

theorem isDecoded_of_mem_traced {callsOnly : Bool} {steps : Nat} :
    ∀ s ∈ traced settings callsOnly vm main steps, s.IsDecoded :=
  fun s hs => (Machine.isBoundary_of_mem_selected s hs).isDecoded

theorem tracer_eq (settings : Settings) (vm : VirtualMachine Unit) (main : Value) (steps : Nat)
    (callsOnly : Bool) (limit : Option Nat) :
    let h : ArmedHook Tracer :=
      ⟨Tracer.hook, traceTrigger settings callsOnly, freshTracer settings limit⟩
    let tracer := (vm.machine.callHooked Host.standard steps h main []).1.notes
    tracer.records.toList = keptRecords settings limit (traced settings callsOnly vm main steps) ∧
    tracer.dropped = droppedCount settings limit (traced settings callsOnly vm main steps) := by
  dsimp only
  have hshown : (traced settings callsOnly vm main steps).foldl (fun t s => t.observe s)
      (freshTracer settings limit) = .ofShown (limit.getD settings.maxTraceRecords)
        settings.traceCallTargets (traced settings callsOnly vm main steps) := by
    rw [freshTracer, ← Tracer.ofShown_nil]
    exact Tracer.foldl_observe (List.forall_mem_nil _) isDecoded_of_mem_traced
  rw [(Machine.callHooked_seesRun ..).shown]
  exact ⟨congrArg (fun t => t.records.toList) hshown, congrArg Tracer.dropped hshown⟩

theorem profiler_total (vm : VirtualMachine Unit) (main : Value) (steps : Nat) :
    let h : ArmedHook Profiler := ⟨Profiler.hook, .everyInstruction, .new true⟩
    let profiler := (vm.machine.callHooked Host.standard steps h main []).1.notes
    profiler.enabled = true ∧
    profiler.total = (vm.machine.boundaries Host.standard main [] steps).length := by
  dsimp only
  have hdecoded : ∀ s ∈ Trigger.everyInstruction.selected vm.machine.executed
      (vm.machine.boundaries Host.standard main [] steps), s.IsDecoded :=
    fun s hs => (Machine.isBoundary_of_mem_selected s hs).isDecoded
  have hnew : (Profiler.new true).enabled = true := rfl
  rw [(Machine.callHooked_seesRun ..).shown]
  obtain ⟨henabled, htotal⟩ := Profiler.foldl_observe hnew hdecoded
  refine ⟨henabled, htotal.trans ?_⟩
  rw [Trigger.length_selected_everyInstruction]
  exact Nat.zero_add _

end

/-- What `run`, `trace` and `profile` put out when they call a closure on a machine that is
prepared: their outputs are `r`, `t` and `p`. -/
structure ExecutedAlike (settings : Settings) (vm : VirtualMachine Unit) (main : Value)
    (steps : Nat) (callsOnly json : Bool) (limit : Option Nat) (r t p : Output) : Prop where
  /-- the run ends as the call does that no hook sees -/
  run : r.ending = endingOf (vm.machine.call Host.standard steps main []).2
  profile : p.ending = r.ending
  /-- the trace ends like the run and prints all records that it keeps, unless it comes to one that
  cannot be printed -/
  trace : t =
    let snapshots := traced settings callsOnly vm main steps
    let records := keptRecords settings limit snapshots
    if ∀ record ∈ records, Fits json record then
      { text := traceText json records
        notes := droppedNotes (droppedCount settings limit snapshots)
        ending := r.ending }
    else .abortedAfter (traceText json (records.takeWhile fun record => Fits json record))
  /-- the profile states the number of all instructions -/
  total : ∃ rest, p.text = Profiler.heading
    (vm.machine.boundaries Host.standard main [] steps).length ++ rest
  /-- it is the number of the records that are kept and of those that are not -/
  count : callsOnly = false → settings.trigger = .everyInstruction →
    (keptRecords settings limit (traced settings callsOnly vm main steps)).length +
        droppedCount settings limit (traced settings callsOnly vm main steps) =
      (vm.machine.boundaries Host.standard main [] steps).length

/-- **The commands that execute a chunk agree.** If the preparations come to a failure, all of them
put out this failure and nothing else. Otherwise they end alike, also if the call fails, and count
the same instructions. -/
theorem executing_commands_agree (s : Surroundings) (steps : Nat) (options : CommonOptions)
    (file : String) (callsOnly json : Bool) (limit : Option Nat) (top : Nat) :
    let run := (Request.perform (.run file) options).output s steps
    let trace := (Request.perform (.trace file callsOnly json limit) options).output s steps
    let profile := (Request.perform (.profile file top) options).output s steps
    match preparation s options file with
    | .refused failure =>
      run = { text := "", ending := .failed failure } ∧ trace = run ∧ profile = run
    | .impossible => run = .abortedAfter "" ∧ trace = run ∧ profile = run
    | .ready settings vm main =>
      ExecutedAlike settings vm main steps callsOnly json limit run trace profile := by
  dsimp only
  rw [output_run, output_trace, output_profile]
  cases preparation s options file with
  | refused failure => exact ⟨rfl, rfl, rfl⟩
  | impossible => exact ⟨rfl, rfl, rfl⟩
  | ready settings vm main =>
    obtain ⟨hrecords, hdropped⟩ := tracer_eq settings vm main steps callsOnly limit
    obtain ⟨henabled, htotal⟩ := profiler_total vm main steps
    refine ⟨rfl, rfl, ?_, ?_, ?_⟩
    · dsimp only [Preparation.output]
      rw [hrecords, traceOutput_eq, hdropped]
    · obtain ⟨rest, hreport⟩ := Profiler.report_eq_heading henabled top
      refine ⟨rest, ?_⟩
      rw [← htotal]
      exact hreport
    · intro hall hevery
      rw [length_keptRecords_add isDecoded_of_mem_traced, traced, traceTrigger, hall,
        if_neg Bool.false_ne_true, hevery, Trigger.length_selected_everyInstruction]

end Command

end RegisterMachine
