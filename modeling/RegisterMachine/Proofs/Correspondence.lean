import RegisterMachine.Proofs.Placement
import RegisterMachine.Proofs.Wrapping

/-!
# Corresponding calls

Two machines correspond in their calls at two sites if the worlds are the same, the frames of the
calls have the same shapes, and the stacks agree on the windows of these frames, which are their
registers and their extra arguments. About the frames below nothing is said, nor about any other
slot. If all chunks are valid, then an action that comes up reads nothing but the windows, so it
is the same on both machines; its plan writes the same, and the new windows are among the old ones
and what was written. So the machines go on to correspond (`Corresponds.step`).

A machine corresponds to itself as soon as its frames, its world and its windows hold nothing but
closures over valid chunks.
-/

namespace RegisterMachine

/-! ### Windows -/

/-- A frame of a closure over a valid chunk, at an instruction or at the end of the code. -/
def Frame.IsSound (g : Frame) : Prop :=
  (∃ id chunk, g.function = .closure id chunk ∧ chunk.IsValid ∧ g.pc ≤ chunk.code.size) ∧
    g.varargCount ≤ g.base

def Frame.Window (g : Frame) (s : Nat) : Prop := g.base - g.varargCount ≤ s ∧ s < g.top

def InWindow (gs : List Frame) (s : Nat) : Prop := ∃ g ∈ gs, g.Window s

theorem InWindow.push {gs : List Frame} {s : Nat} (h : InWindow gs s) (g : Frame) :
    InWindow (g :: gs) s := by
  obtain ⟨f, hf, hs⟩ := h
  exact ⟨f, List.mem_cons_of_mem _ hf, hs⟩

theorem inWindow_cons {g : Frame} {gs : List Frame} {s : Nat} :
    InWindow (g :: gs) s ↔ g.Window s ∨ InWindow gs s := by
  simp [InWindow]

def Edit.Covers (s : Nat) : Edit → Prop
  | .write offset values => offset ≤ s ∧ s < offset + values.length
  | .cut offset => offset ≤ s
  | .grow _ => False

def Edit.Wraps (P : Chunk → Prop) : Edit → Prop
  | .write _ values => ∀ v ∈ values, v.Wraps P
  | .cut _ | .grow _ => True

/-- Two stacks hold the same on a set of places relative to two slots, and no closures there but
ones over chunks with the property. -/
def Agree (P : Chunk → Prop) (W : Nat → Prop) (slot slot' : Nat) (s s' : ValueStack) : Prop :=
  ∀ j, W j → s.get (slot + j) = s'.get (slot' + j) ∧ (s.get (slot + j)).Wraps P

namespace Agree

variable {P : Chunk → Prop} {W : Nat → Prop} {slot slot' : Nat} {s s' : ValueStack}

theorem mono (h : Agree P W slot slot' s s') {V : Nat → Prop} (hV : ∀ j, V j → W j) :
    Agree P V slot slot' s s' :=
  fun j hj => h j (hV j hj)

theorem edit (h : Agree P W slot slot' s s') {x : Edit} (hx : x.Wraps P) :
    Agree P (fun j => W j ∨ x.Covers j) slot slot' (s.edit slot x) (s'.edit slot' x) := by
  intro j hj
  cases x with
  | write offset values =>
    simp only [ValueStack.edit]
    rcases Nat.lt_or_ge j offset with hlt | hge
    · have hW : W j := hj.resolve_right fun hc => Nat.not_le.2 hlt hc.1
      rw [ValueStack.get_setAll_of_lt _ _ (by omega), ValueStack.get_setAll_of_lt _ _ (by omega)]
      exact h j hW
    · rcases Nat.lt_or_ge j (offset + values.length) with hlt | hle
      · obtain ⟨i, rfl⟩ := Nat.exists_eq_add_of_le hge
        have hi : i < values.length := by omega
        rw [← Nat.add_assoc, ← Nat.add_assoc, ValueStack.get_setAll_add _ _ _ hi,
          ValueStack.get_setAll_add _ _ _ hi]
        exact ⟨rfl, hx _ (List.getElem_mem hi)⟩
      · have hW : W j := hj.resolve_right fun hc => Nat.not_le.2 hc.2 hle
        rw [ValueStack.get_setAll_of_le _ _ (by omega), ValueStack.get_setAll_of_le _ _ (by omega)]
        exact h j hW
  | cut offset =>
    simp only [ValueStack.edit, ValueStack.get_truncate, Nat.add_lt_add_iff_left]
    split
    · rename_i hlt
      exact h j (hj.resolve_right (Nat.not_le.2 hlt))
    · exact ⟨rfl, trivial⟩
  | grow offset =>
    simp only [ValueStack.edit, ValueStack.get_ensureSize]
    exact h j (hj.resolve_right id)

theorem edits (h : Agree P W slot slot' s s') {xs : List Edit} (hxs : ∀ x ∈ xs, x.Wraps P) :
    Agree P (fun j => W j ∨ ∃ x ∈ xs, x.Covers j) slot slot' (xs.foldl (ValueStack.edit slot) s)
      (xs.foldl (ValueStack.edit slot') s') := by
  induction xs generalizing W s s' with
  | nil => exact h.mono fun j hj => hj.resolve_right (by simp)
  | cons x xs ih =>
    obtain ⟨hx, hxs⟩ := List.forall_mem_cons.1 hxs
    refine (ih (h.edit hx) hxs).mono fun j hj => ?_
    simpa [or_assoc] using hj

theorem slice_eq (h : Agree P W slot slot' s s') {start start' offset count : Nat}
    (hstart : start = slot + offset) (hstart' : start' = slot' + offset)
    (hW : ∀ j < count, W (offset + j)) : s.slice start count = s'.slice start' count := by
  subst hstart hstart'
  refine ValueStack.slice_eq_slice_iff.2 fun j hj => ?_
  rw [Nat.add_assoc, Nat.add_assoc]
  exact (h _ (hW j hj)).1

theorem slice_wraps (h : Agree P W slot slot' s s') {start offset count : Nat}
    (hstart : start = slot + offset) (hW : ∀ j < count, W (offset + j)) :
    ∀ v ∈ s.slice start count, v.Wraps P := by
  intro v hv
  obtain ⟨j, hj, rfl⟩ := ValueStack.mem_slice.1 hv
  rw [hstart, Nat.add_assoc]
  exact (h _ (hW j hj)).2

end Agree

/-! ### Sound plans -/

/-- Some native function of the host fails with an error of the same root. -/
def Host.Raises (host : Host) (e : RuntimeError) : Prop :=
  ∃ key call w e', (host key call w).1 = .error e' ∧ e'.root = e.root

theorem Host.raises_of_eq {host : Host} {key : NativeKey} {call : NativeCall} {w w' : World}
    {e : RuntimeError} (h : host key call w = (.error e, w')) : host.Raises e :=
  ⟨key, call, w, e, by rw [h], rfl⟩

/-- A change brings in nothing but valid chunks, and every slot in a window afterwards was in one
before or has been settled. -/
structure Change.IsSound (gs : List Frame) (c : Change) : Prop where
  world : c.world.Wraps Chunk.IsValid
  edits : ∀ x ∈ c.edits, x.Wraps Chunk.IsValid
  frames : ∀ g ∈ c.frames, g.IsSound
  covered : ∀ s, InWindow c.frames s → InWindow gs s ∨ ∃ x ∈ c.edits, x.Covers s

/-- What a plan of the frame `g` above `gs` can be if all chunks are valid. -/
def Plan.IsSound (host : Host) (limit depth : Nat) (g : Frame) (gs : List Frame) : Plan → Prop
  | .goOn c => c.IsSound (g :: gs) ∧ c.frames ≠ [] ∧ depth + c.frames.length ≤ limit
  | .give c values =>
    gs = [] ∧ c.frames = [g] ∧ c.world.Wraps Chunk.IsValid ∧ ∀ v ∈ values, v.Wraps Chunk.IsValid
  | .fail c e =>
    c.frames = g :: gs ∧ c.world.Wraps Chunk.IsValid ∧ (e.isMalformed = true → host.Raises e)

theorem Machine.adjustResults_wraps {P : Chunk → Prop} {values : List Value}
    (h : ∀ v ∈ values, v.Wraps P) (expected : Option Nat) :
    ∀ v ∈ adjustResults values expected, v.Wraps P := by
  cases expected with
  | none => exact h
  | some count =>
    intro v hv
    rcases List.mem_append.1 hv with hv | hv
    · exact h v (List.mem_of_mem_take hv)
    · rw [List.eq_of_mem_replicate hv]
      trivial

theorem Machine.initialRegisters_wraps {P : Chunk → Prop} {args : List Value}
    (h : ∀ v ∈ args, v.Wraps P) (chunk : Chunk) :
    ∀ v ∈ initialRegisters chunk args, v.Wraps P := by
  intro v hv
  rcases List.mem_append.1 hv with hv | hv
  · exact h v (List.mem_of_mem_take hv)
  · rw [List.eq_of_mem_replicate hv]
    trivial

theorem Invocation.moved_wraps {P : Chunk → Prop} {c : Invocation} (h : c.Wraps P) :
    ∀ v ∈ c.moved, v.Wraps P := by
  unfold moved
  split
  · exact List.forall_mem_cons.2 h
  · simp

/-- The window of a new frame lies in its arguments and in the registers that are set up. -/
theorem Machine.window_closureFrame (id : Nat) {chunk : Chunk} (hvalid : chunk.IsValid)
    (slot : Nat) (args : List Value) (expected : Option Nat) {s : Nat}
    (h : (closureFrame (.closure id chunk) chunk slot args.length expected).Window s) :
    (slot + 1 ≤ s ∧ s < slot + 1 + args.length) ∨
      ∃ x ∈ Plan.entering chunk
        (closureFrame (.closure id chunk) chunk slot args.length expected) args, x.Covers s := by
  obtain ⟨hlow, htop⟩ := h
  by_cases hbase : (closureFrame (.closure id chunk) chunk slot args.length expected).base ≤ s
  · right
    refine ⟨_, List.mem_cons_self, hbase, ?_⟩
    rw [length_initialRegisters, hvalid.frameSize_eq]
    exact htop
  · left
    simp only [closureFrame] at hlow hbase
    cases hvararg : chunk.isVararg with
    | true =>
      simp only [hvararg, if_true] at hlow hbase
      omega
    | false =>
      simp only [hvararg, Bool.false_eq_true, if_false] at hlow hbase
      omega

theorem Machine.closureFrame_isSound {id : Nat} {chunk : Chunk} (hvalid : chunk.IsValid)
    (slot count : Nat) (expected : Option Nat) :
    (closureFrame (.closure id chunk) chunk slot count expected).IsSound :=
  ⟨⟨id, chunk, rfl, hvalid, Nat.zero_le _⟩, (closureFrame_isSeated id chunk slot count expected).2⟩

theorem Plan.entering_wraps {P : Chunk → Prop} {args : List Value} (h : ∀ v ∈ args, v.Wraps P)
    (chunk : Chunk) (frame : Frame) : ∀ x ∈ entering chunk frame args, x.Wraps P := by
  intro x hx
  simp only [entering, List.mem_cons, List.not_mem_nil, or_false] at hx
  rcases hx with rfl | rfl
  · exact Machine.initialRegisters_wraps h chunk
  · trivial

theorem Plan.giving_isSound {host : Host} {limit depth : Nat} {w : World} {xs : List Edit}
    {g : Frame} {gs : List Frame} {values : List Value} (hw : w.Wraps Chunk.IsValid)
    (hxs : ∀ x ∈ xs, x.Wraps Chunk.IsValid) (hgs : ∀ f ∈ gs, f.IsSound)
    (hv : ∀ v ∈ values, v.Wraps Chunk.IsValid) (hroom : depth + (gs.length + 1) ≤ limit) :
    (giving w xs g gs values).IsSound host limit depth g gs := by
  cases gs with
  | nil => exact ⟨rfl, rfl, hw, hv⟩
  | cons caller gs =>
    refine ⟨⟨hw, ?_, hgs, fun s hs => .inl (hs.push g)⟩, List.cons_ne_nil _ _, ?_⟩
    · refine List.forall_mem_append.2 ⟨hxs, ?_⟩
      simp only [List.forall_mem_cons]
      exact ⟨Machine.adjustResults_wraps hv g.expected, trivial, by simp⟩
    · dsimp only
      omega

section

variable {host : Host} {limit depth : Nat} {w : World} {g : Frame} {gs : List Frame} {id : Nat}
  {chunk : Chunk}

/-- The arguments above a callee lie in the window of the frame that calls it, unless a handler
has moved them. -/
theorem Invocation.covered_args {c : Invocation} {register : Nat}
    (hc : g.function = .closure id chunk)
    (htouched : ∀ r ∈ List.range' register (c.given.length + 1), r < chunk.maxStackSize.toNat)
    {s : Nat} (hs : g.base + register + 1 ≤ s ∧ s < g.base + register + 1 + c.args.length) :
    g.Window s ∨ (Edit.write (g.base + register) c.moved).Covers s := by
  cases hvia : c.viaHandler with
  | true =>
    right
    simp only [Edit.Covers, moved, hvia, if_true, List.length_cons]
    omega
  | false =>
    left
    simp only [given, hvia, Bool.false_eq_true, if_false] at htouched
    have := htouched (s - g.base) (by rw [List.mem_range'_1]; omega)
    refine ⟨by omega, ?_⟩
    simp only [Frame.top, hc]
    omega

theorem Action.plan_call_isSound (hhost : host.Keeps Chunk.IsValid) (hw : w.Wraps Chunk.IsValid)
    (hc : g.function = .closure id chunk) (hframes : ∀ f ∈ g :: gs, f.IsSound)
    (hroom : depth + (gs.length + 1) ≤ limit) {register expected : Nat} {c : Invocation}
    (hwraps : c.Wraps Chunk.IsValid)
    (htouched : ∀ r ∈ List.range' register (c.given.length + 1), r < chunk.maxStackSize.toNat) :
    ((Action.call register c expected).plan host limit depth w g gs).IsSound host limit depth g
      gs := by
  have hready : (Edit.write (g.base + register) c.moved).Wraps Chunk.IsValid :=
    Invocation.moved_wraps hwraps
  dsimp only [plan]
  split
  · exact ⟨rfl, hw, nofun⟩
  · rename_i hfull
    split
    · rename_i callee code hf
      have hvalid : code.IsValid := by
        have := hwraps.1
        rwa [hf] at this
      refine ⟨⟨hw, ?_, ?_, fun s hs => ?_⟩, List.cons_ne_nil _ _, ?_⟩
      · refine List.forall_mem_append.2 ⟨?_, Plan.entering_wraps hwraps.2 _ _⟩
        exact List.forall_mem_singleton.2 hready
      · rw [hf]
        exact List.forall_mem_cons.2 ⟨Machine.closureFrame_isSound hvalid _ _ _, hframes⟩
      · rw [inWindow_cons] at hs
        rcases hs with hs | hs
        · rw [hf] at hs ⊢
          rcases Machine.window_closureFrame callee hvalid _ c.args _ hs with
            hargs | ⟨x, hx, hcovers⟩
          · rcases Invocation.covered_args hc htouched hargs with hwindow | hcovers
            · exact .inl (inWindow_cons.2 (.inl hwindow))
            · exact .inr ⟨_, List.mem_append_left _ (List.mem_singleton_self _), hcovers⟩
          · exact .inr ⟨x, List.mem_append_right _ hx, hcovers⟩
        · exact .inl hs
      · simp only [List.length_cons]
        omega
    · rename_i callee name key hf
      obtain ⟨hworld, hvalue⟩ := hhost key ⟨name, c.args⟩ w hw hwraps.2
      rcases hcall : host key ⟨name, c.args⟩ w with ⟨error | v, w'⟩
      · rw [hcall] at hworld
        exact ⟨rfl, hworld, fun _ => Host.raises_of_eq hcall⟩
      · rw [hcall] at hworld hvalue
        have hresults := Machine.adjustResults_wraps
          (List.forall_mem_singleton.2 (hvalue v rfl)) (some expected)
        refine ⟨⟨hworld, ?_, hframes, fun s hs => .inl hs⟩, List.cons_ne_nil _ _, hroom⟩
        refine List.forall_mem_append.2 ⟨List.forall_mem_singleton.2 hready, ?_⟩
        exact List.forall_mem_singleton.2 hresults

theorem Action.plan_tailCall_isSound (hhost : host.Keeps Chunk.IsValid)
    (hw : w.Wraps Chunk.IsValid) (hframes : ∀ f ∈ g :: gs, f.IsSound)
    (hroom : depth + (gs.length + 1) ≤ limit) {register : Nat} {c : Invocation}
    (hwraps : c.Wraps Chunk.IsValid) :
    ((Action.tailCall register c).plan host limit depth w g gs).IsSound host limit depth g gs := by
  have hready : (Edit.write (g.base + register) c.moved).Wraps Chunk.IsValid :=
    Invocation.moved_wraps hwraps
  have hbelow : ∀ f ∈ gs, f.IsSound := fun f hf => hframes f (List.mem_cons_of_mem _ hf)
  dsimp only [plan]
  split
  · rename_i callee name key hf
    split
    · exact ⟨rfl, hw, nofun⟩
    · obtain ⟨hworld, hvalue⟩ := hhost key ⟨name, c.args⟩ w hw hwraps.2
      rcases hcall : host key ⟨name, c.args⟩ w with ⟨error | v, w'⟩
      · rw [hcall] at hworld
        exact ⟨rfl, hworld, fun _ => Host.raises_of_eq hcall⟩
      · rw [hcall] at hworld hvalue
        exact Plan.giving_isSound hworld (List.forall_mem_singleton.2 hready) hbelow
          (List.forall_mem_singleton.2 (hvalue v rfl)) hroom
  · rename_i callee code hf
    have hvalid : code.IsValid := by
      have := hwraps.1
      rwa [hf] at this
    -- the frame itself is gone, so there is room for the one that takes its place
    rw [if_neg (by omega)]
    refine ⟨⟨hw, ?_, ?_, fun s hs => ?_⟩, List.cons_ne_nil _ _, ?_⟩
    · refine List.forall_mem_append.2 ⟨List.forall_mem_cons.2 ⟨hready, ?_⟩,
        Plan.entering_wraps hwraps.2 _ _⟩
      exact List.forall_mem_cons.2 ⟨List.forall_mem_cons.2 hwraps,
        List.forall_mem_singleton.2 trivial⟩
    · refine List.forall_mem_cons.2 ⟨?_, hbelow⟩
      rw [hf]
      exact Machine.closureFrame_isSound hvalid _ _ none
    · rw [inWindow_cons] at hs
      rcases hs with hs | hs
      · right
        rw [hf] at hs ⊢
        rcases Machine.window_closureFrame callee hvalid g.returnBase c.args g.expected hs with
          hargs | ⟨x, hx, hcovers⟩
        · refine ⟨.write g.returnBase (.function (.closure callee code) :: c.args), by simp, ?_⟩
          simp only [Edit.Covers, List.length_cons]
          omega
        · exact ⟨x, List.mem_append_right _ hx, hcovers⟩
      · exact .inl (hs.push g)
    · simp only [List.length_cons]
      omega

/-- The plan of an action is sound if everything that the action brings in is. -/
theorem Action.plan_isSound (hhost : host.Keeps Chunk.IsValid) (hw : w.Wraps Chunk.IsValid)
    (hc : g.function = .closure id chunk) (hframes : ∀ f ∈ g :: gs, f.IsSound)
    (hroom : depth + (gs.length + 1) ≤ limit) {a : Action} (hwraps : a.Wraps Chunk.IsValid)
    (herror : ∀ e, a = .stay (.error e) → e.isMalformed = false)
    (htarget : ∀ x t, a = .stay (.ok x) → x.target = some t → t ≤ chunk.code.size)
    (htouched : ∀ r ∈ a.touched, r < chunk.maxStackSize.toNat) :
    (a.plan host limit depth w g gs).IsSound host limit depth g gs := by
  cases a with
  | stay result =>
    cases result with
    | error e =>
      refine ⟨rfl, hw, fun he => ?_⟩
      rw [herror e rfl] at he
      cases he
    | ok x =>
      obtain ⟨hg, hgs⟩ := List.forall_mem_cons.1 hframes
      obtain ⟨⟨id', chunk', hc', hvalid, hpc⟩, hseated⟩ := hg
      obtain ⟨-, rfl⟩ := Function.closure.inj (hc.symm.trans hc')
      refine ⟨⟨hwraps.1, List.forall_mem_singleton.2 hwraps.2, ?_, fun s hs => ?_⟩,
        List.cons_ne_nil _ _, hroom⟩
      · refine List.forall_mem_cons.2 ⟨⟨⟨id, chunk, hc, hvalid, ?_⟩, hseated⟩, hgs⟩
        cases ht : x.target with
        | none => exact hpc
        | some t => exact htarget x t rfl ht
      · rw [inWindow_cons] at hs ⊢
        exact .inl hs
  | call register c expected =>
    refine plan_call_isSound hhost hw hc hframes hroom hwraps fun r hr => htouched r ?_
    exact List.mem_append_left _ hr
  | tailCall register c => exact plan_tailCall_isSound hhost hw hframes hroom hwraps
  | give values =>
    exact Plan.giving_isSound hw nofun (fun f hf => hframes f (List.mem_cons_of_mem _ hf)) hwraps
      hroom

end

/-! ### Two machines -/

namespace Machine

/-- Two machines correspond in their calls at two sites, with frames of the shapes `gs`. -/
structure Corresponds (site site' : Site) (gs : List Frame) (m m' : Machine) : Prop where
  frames : m.frames = site.frames gs
  frames' : m'.frames = site'.frames gs
  depth : site.base.depth = site'.base.depth
  limit : m.maxCallDepth = m'.maxCallDepth
  room : site.base.depth + gs.length ≤ m.maxCallDepth
  world : m.world = m'.world
  valid : m.world.Wraps Chunk.IsValid
  sound : ∀ g ∈ gs, g.IsSound
  agree : Agree Chunk.IsValid (InWindow gs) site.slot site'.slot m.stack m'.stack

/-- The steps of two machines go on to correspond, give the same values or fail alike, whatever the
depths at which their hosts called. -/
inductive StepsAlike (host : Host) (site site' : Site) (m m' : Machine) : Prop where
  | goOn (gs : List Frame) (n n' : Machine) (hgs : gs ≠ []) (h : Corresponds site site' gs n n')
      (hs : ∀ e ≤ site.base.depth, m.step host e = .next n)
      (hs' : ∀ e ≤ site'.base.depth, m'.step host e = .next n')
  | give (g : Frame) (n n' : Machine) (values : List Value) (hf : n.frames = site.frames [g])
      (hf' : n'.frames = site'.frames [g]) (hw : n.world = n'.world)
      (hvalid : n.world.Wraps Chunk.IsValid) (hvalues : ∀ v ∈ values, v.Wraps Chunk.IsValid)
      (hs : ∀ e ≤ site.base.depth, m.step host e = n.leave e values)
      (hs' : ∀ e ≤ site'.base.depth, m'.step host e = n'.leave e values)
  | fail (n n' : Machine) (error : RuntimeError) (hw : n.world = n'.world)
      (hvalid : n.world.Wraps Chunk.IsValid) (herror : error.isMalformed = true → host.Raises error)
      (hs : ∀ e ≤ site.base.depth, m.step host e = .failed n error)
      (hs' : ∀ e ≤ site'.base.depth, m'.step host e = .failed n' error)

namespace Corresponds

variable {host : Host} {site site' : Site} {g : Frame} {gs : List Frame} {m m' : Machine}

/-- The frames of the two calls give an error the same place. -/
theorem locate_eq {n n' : Machine} (hf : n.frames = site.frames (g :: gs))
    (hf' : n'.frames = site'.frames (g :: gs)) (chunk : Chunk) (pc : Nat) (error : RuntimeError) :
    n.locate chunk pc error = n'.locate chunk pc error := by
  simp only [locate, hf, hf', Site.frames]
  rfl

theorem change (h : Corresponds site site' (g :: gs) m m') {c : Change}
    (hc : c.IsSound (g :: gs)) (hroom : site.base.depth + c.frames.length ≤ m.maxCallDepth) :
    Corresponds site site' c.frames (m.change site c) (m'.change site' c) where
  frames := rfl
  frames' := rfl
  depth := h.depth
  limit := h.limit
  room := hroom
  world := rfl
  valid := hc.world
  sound := hc.frames
  agree := (h.agree.edits hc.edits).mono hc.covered

theorem enact {n n' : Machine} (h : Corresponds site site' (g :: gs) n n') {plan : Plan}
    (hp : plan.IsSound host n.maxCallDepth site.base.depth g gs) {chunk : Chunk} {pc : Nat}
    (hs : ∀ e ≤ site.base.depth, m.step host e = (plan.enact e n site).locate chunk pc)
    (hs' : ∀ e ≤ site'.base.depth, m'.step host e = (plan.enact e n' site').locate chunk pc) :
    StepsAlike host site site' m m' := by
  cases plan with
  | goOn c =>
    obtain ⟨hc, hne, hroom⟩ := hp
    exact .goOn c.frames _ _ hne (h.change hc hroom) hs hs'
  | give c values =>
    obtain ⟨rfl, hframes, hworld, hvalues⟩ := hp
    refine .give g (n.change site c) (n'.change site' c) values ?_ ?_ rfl hworld hvalues
      (fun e he => ?_) fun e he => ?_
    · rw [Machine.change, hframes]
    · rw [Machine.change, hframes]
    · rw [hs e he, Plan.enact, locate_leave]
    · rw [hs' e he, Plan.enact, locate_leave]
  | fail c error =>
    obtain ⟨hframes, hworld, herror⟩ := hp
    have heq : (n'.change site' c).locate chunk pc error =
        (n.change site c).locate chunk pc error :=
      (locate_eq (congrArg site.frames hframes) (congrArg site'.frames hframes) chunk pc error).symm
    refine .fail (n.change site c) (n'.change site' c) ((n.change site c).locate chunk pc error) rfl
      hworld herror hs fun e he => ?_
    rw [hs' e he, Plan.enact, Step.locate, heq]

theorem begin (h : Corresponds site site' (g :: gs) m m')
    (hg : ({ g with pc := g.pc + 1 } : Frame).IsSound) :
    Corresponds site site' ({ g with pc := g.pc + 1 } :: gs) m.begin m'.begin where
  frames := begin_placed h.frames
  frames' := begin_placed h.frames'
  depth := h.depth
  limit := by rw [begin_maxCallDepth, begin_maxCallDepth, h.limit]
  room := by
    rw [begin_maxCallDepth]
    exact h.room
  world := by rw [begin_world, begin_world, h.world]
  valid := by
    rw [begin_world]
    exact h.valid
  sound := List.forall_mem_cons.2 ⟨hg, fun f hf => h.sound f (List.mem_cons_of_mem _ hf)⟩
  agree := by
    rw [begin_stack, begin_stack]
    refine h.agree.mono fun j hj => ?_
    rw [inWindow_cons] at hj ⊢
    exact hj

section

variable {id : Nat} {chunk : Chunk} {i : Instruction} {op : Opcode}

theorem window_register (hc : g.function = .closure id chunk) {r : Nat}
    (hr : r < chunk.maxStackSize.toNat) : InWindow (g :: gs) (g.base + r) := by
  refine inWindow_cons.2 (.inl ⟨by omega, ?_⟩)
  simp only [Frame.top, hc]
  omega

theorem window_extra (hv : g.varargCount ≤ g.base) (hc : g.function = .closure id chunk) {j : Nat}
    (hj : j < g.varargCount) : InWindow (g :: gs) (g.base - g.varargCount + j) := by
  refine inWindow_cons.2 (.inl ⟨by omega, ?_⟩)
  simp only [Frame.top, hc]
  omega

/-- The registers that an admitted instruction names read the same on both machines. -/
theorem register_eq (h : Corresponds site site' (g :: gs) m m')
    (hc : g.function = .closure id chunk) {r : Nat} (hr : r < chunk.maxStackSize.toNat) :
    m.register (site.slot + g.base) r = m'.register (site'.slot + g.base) r ∧
      (m.register (site.slot + g.base) r).Wraps Chunk.IsValid := by
  simp only [register, read, Nat.add_assoc]
  exact h.agree _ (window_register hc hr)

/-- The same action comes up on both machines, and it brings in valid chunks only. -/
theorem placedAction_eq (h : Corresponds site site' (g :: gs) m m')
    (hc : g.function = .closure id chunk) (hvalid : chunk.IsValid)
    (hadmits : chunk.Admits g.pc i op) :
    m.placedAction site g chunk i op = m'.placedAction site' g chunk i op ∧
      (m.placedAction site g chunk i op).Wraps Chunk.IsValid := by
  have hv : g.varargCount ≤ g.base := (h.sound g List.mem_cons_self).2
  have hregister (r : Nat) (hr : r ∈ i.registers op) := h.register_eq hc (hadmits.registers r hr)
  have hstart : site.slot + g.base - g.varargCount = site.slot + (g.base - g.varargCount) :=
    Nat.add_sub_assoc hv _
  have hstart' : site'.slot + g.base - g.varargCount = site'.slot + (g.base - g.varargCount) :=
    Nat.add_sub_assoc hv _
  have hextra := h.agree.slice_eq hstart hstart' fun j hj => window_extra hv hc hj
  constructor
  · unfold placedAction
    rw [Instruction.action_congr fun r hr => (hregister r hr).1, hextra, h.world]
  · refine Instruction.action_wraps h.valid (fun r hr => (hregister r hr).2) ?_ ?_
    · exact h.agree.slice_wraps hstart fun j hj => window_extra hv hc hj
    · exact fun f hf => hvalid.nested hf

end

/-- **One step of two machines.** Machines that correspond go on to do so, or their calls end
alike. -/
theorem step (hhost : host.Keeps Chunk.IsValid) (h : Corresponds site site' (g :: gs) m m') :
    StepsAlike host site site' m m' := by
  obtain ⟨⟨id, chunk, hc, hvalid, hpc⟩, hv⟩ := h.sound g List.mem_cons_self
  have hroom : site.base.depth + (gs.length + 1) ≤ m.maxCallDepth := h.room
  have hbelow : ∀ f ∈ gs, f.IsSound := fun f hf => h.sound f (List.mem_cons_of_mem _ hf)
  cases hi : chunk.code[g.pc]? with
  | none =>
    have hp : (Plan.giving m.world [] g gs []).IsSound host m.maxCallDepth site.base.depth g gs :=
      Plan.giving_isSound h.valid nofun hbelow nofun hroom
    refine h.enact hp (fun e he => step_placed_pastEnd host h.frames hc hi fun _ => he)
      fun e he => ?_
    rw [h.world]
    exact step_placed_pastEnd host h.frames' hc hi fun _ => he
  | some i =>
    obtain ⟨op, ho, hadmits⟩ := hvalid.admits hi
    have hlt : g.pc < chunk.code.size := (Array.getElem?_eq_some_iff.1 hi).1
    have hg : ({ g with pc := g.pc + 1 } : Frame).IsSound := ⟨⟨id, chunk, hc, hvalid, hlt⟩, hv⟩
    obtain ⟨haction, hwraps⟩ := h.placedAction_eq hc hvalid hadmits
    have hframes : ∀ f ∈ { g with pc := g.pc + 1 } :: gs, f.IsSound :=
      List.forall_mem_cons.2 ⟨hg, hbelow⟩
    have hc' : ({ g with pc := g.pc + 1 } : Frame).function = .closure id chunk := hc
    have hp := Action.plan_isSound hhost h.valid hc' hframes hroom hwraps
      (fun error he => Instruction.not_malformed hadmits he)
      (fun x t hx ht => Instruction.target_le hadmits hx ht)
      fun r hr => hadmits.registers r (Instruction.mem_registers_of_mem_touched hr)
    refine (h.begin hg).enact ?_
      (fun e he => step_placed_instruction host h.frames hc hv hi ho fun _ => he) fun e he => ?_
    · rw [begin_maxCallDepth]
      exact hp
    · rw [haction, h.limit, h.depth, h.world]
      exact step_placed_instruction host h.frames' hc hv hi ho fun _ => he

/-- Machines on which the same closure has just been entered with the same arguments correspond,
whatever else lies on their stacks. -/
theorem entered {k k' : Machine} {slot slot' : Nat} {id : Nat} {chunk : Chunk} {args : List Value}
    (expected expected' : Option Nat) (hworld : k.world = k'.world)
    (hvalid : k.world.Wraps Chunk.IsValid) (hdepth : k.depth = k'.depth)
    (hlimit : k.maxCallDepth = k'.maxCallDepth) (hroom : k.depth < k.maxCallDepth)
    (hchunk : chunk.IsValid) (hwraps : ∀ v ∈ args, v.Wraps Chunk.IsValid)
    (hargs : k.stack.slice (slot + 1) args.length = args)
    (hargs' : k'.stack.slice (slot' + 1) args.length = args) :
    Corresponds ⟨k.frames, slot, expected⟩ ⟨k'.frames, slot', expected'⟩
      [closureFrame (.closure id chunk) chunk 0 args.length none]
      (k.enterWith (.closure id chunk) chunk slot args expected)
      (k'.enterWith (.closure id chunk) chunk slot' args expected') where
  frames := frames_enterWith k _ chunk slot args expected
  frames' := frames_enterWith k' _ chunk slot' args expected'
  depth := hdepth
  limit := hlimit
  room := hroom
  world := hworld
  valid := hvalid
  sound := List.forall_mem_singleton.2 (closureFrame_isSound hchunk _ _ none)
  agree := by
    rw [stack_enterWith, stack_enterWith]
    -- before the registers are set up the stacks agree on the arguments, and that is enough
    have hbefore : Agree Chunk.IsValid (fun j => 0 + 1 ≤ j ∧ j < 0 + 1 + args.length) slot slot'
        k.stack k'.stack := by
      rintro j ⟨hlow, hhigh⟩
      obtain ⟨i, rfl⟩ := Nat.exists_eq_add_of_le hlow
      have hi : i < args.length := by omega
      have hget := ValueStack.slice_eq_iff.1 hargs i hi
      have hget' := ValueStack.slice_eq_iff.1 hargs' i hi
      rw [Nat.zero_add, ← Nat.add_assoc, ← Nat.add_assoc, hget, hget']
      exact ⟨rfl, hwraps _ (List.getElem_mem hi)⟩
    refine (hbefore.edits (Plan.entering_wraps hwraps chunk _)).mono fun j hj => ?_
    rw [inWindow_cons] at hj
    refine window_closureFrame id hchunk 0 args none (hj.resolve_right ?_)
    simp [InWindow]

end Corresponds

end Machine

end RegisterMachine
