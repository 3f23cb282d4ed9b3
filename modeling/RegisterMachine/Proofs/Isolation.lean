import Mathlib.Data.List.Forall2
import RegisterMachine.Proofs.Correspondence

/-!
# Old contents of the stack

The stack is used again without being cleared. All the same a closure finds nothing in it but its
arguments: entered twice with the same arguments in the same world, at other slots of other stacks,
it takes the same course, step by step (`entered_alike`). In both courses the same frames are
active, their registers hold the same values, and the closure ends with the same values or the same
error, or both go on.
-/

namespace RegisterMachine

def CallStack.above (depth : Nat) : CallStack → List Frame
  | empty => []
  | push frame below => if depth ≤ below.depth then frame :: below.above depth else []

theorem CallStack.above_depth (s : CallStack) : s.above s.depth = [] := by
  cases s with
  | empty => rfl
  | push frame below => exact if_neg (Nat.not_succ_le_self _)

namespace Machine

/-! ### The course of a frame -/

inductive Course where
  /-- it has not ended -/
  | running (m : Machine)
  | returned (world : World) (values : List Value)
  | failed (world : World) (error : RuntimeError)
  /-- the call ended otherwise -/
  | lost

/-- The course of the frame above `depth` others, for a number of steps of a call that started with
`e` frames. The frame ends with the values that it would give to a host. -/
def course (host : Host) (e depth : Nat) : Nat → Machine → Course
  | 0, m => .running m
  | n + 1, m =>
    match m.step host depth with
    | .done last values => .returned last.world values
    | _ =>
      match m.step host e with
      | .next m' => course host e depth n m'
      | .failed last error => .failed last.world error
      | .done _ _ | .stuck _ => .lost

/-- Frames at the same instruction of the same function, whose registers and extra arguments hold
the same values. -/
structure SameFrame (m m' : Machine) (f f' : Frame) : Prop where
  function : f.function = f'.function
  pc : f.pc = f'.pc
  isTailCall : f.isTailCall = f'.isTailCall
  varargCount : f.varargCount = f'.varargCount
  registers : ∀ id chunk, f.function = .closure id chunk → ∀ r < chunk.frameSize,
    m.read (f.base + r) = m'.read (f'.base + r)
  extra : m.stack.slice (f.base - f.varargCount) f.varargCount =
    m'.stack.slice (f'.base - f'.varargCount) f'.varargCount

/-- Courses that are the same but for the places on the stack. -/
inductive SameCourse (depth depth' : Nat) : Course → Course → Prop
  | running {m m' : Machine} (world : m.world = m'.world)
      (frames : List.Forall₂ (SameFrame m m') (m.frames.above depth) (m'.frames.above depth')) :
      SameCourse depth depth' (.running m) (.running m')
  | returned (world : World) (values : List Value) :
      SameCourse depth depth' (.returned world values) (.returned world values)
  | failed (world : World) (error : RuntimeError) :
      SameCourse depth depth' (.failed world error) (.failed world error)

section

variable {host : Host} {e depth : Nat} {m m' : Machine}

theorem course_of_done {last : Machine} {values : List Value}
    (h : m.step host depth = .done last values) (n : Nat) :
    course host e depth (n + 1) m = .returned last.world values := by
  simp only [course, h]

theorem course_of_next {k : Machine} (h : m.step host depth = .next k)
    (h' : m.step host e = .next m') (n : Nat) :
    course host e depth (n + 1) m = course host e depth n m' := by
  simp only [course, h, h']

theorem course_of_failed {last last' : Machine} {error error' : RuntimeError}
    (h : m.step host depth = .failed last error) (h' : m.step host e = .failed last' error')
    (n : Nat) : course host e depth (n + 1) m = .failed last'.world error' := by
  simp only [course, h, h']

end

/-! ### Corresponding machines take the same course -/

theorem above_frames_cons (site : Site) (g : Frame) (gs : List Frame) :
    (site.frames (g :: gs)).above site.base.depth =
      { g.placed site.slot with expected := if gs.isEmpty then site.expected else g.expected } ::
        (site.frames gs).above site.base.depth := by
  have hle : site.base.depth ≤ (site.frames gs).depth := by
    rw [Site.depth_frames]
    exact Nat.le_add_right _ _
  exact if_pos hle

/-- The frames of two calls of the same shapes are related one by one. -/
theorem forall₂_above {site site' : Site} {R : Frame → Frame → Prop} {gs : List Frame}
    (h : ∀ g ∈ gs, ∀ x x', R { g.placed site.slot with expected := x }
      { g.placed site'.slot with expected := x' }) :
    List.Forall₂ R ((site.frames gs).above site.base.depth)
      ((site'.frames gs).above site'.base.depth) := by
  induction gs with
  | nil =>
    rw [Site.frames_nil, Site.frames_nil, CallStack.above_depth, CallStack.above_depth]
    exact .nil
  | cons g gs ih =>
    rw [above_frames_cons, above_frames_cons]
    exact .cons (h g List.mem_cons_self _ _) (ih fun f hf => h f (List.mem_cons_of_mem _ hf))

theorem Corresponds.sameFrames {site site' : Site} {gs : List Frame} {m m' : Machine}
    (h : Corresponds site site' gs m m') :
    List.Forall₂ (SameFrame m m') (m.frames.above site.base.depth)
      (m'.frames.above site'.base.depth) := by
  rw [h.frames, h.frames']
  refine forall₂_above fun g hg x x' => ?_
  obtain ⟨⟨id, chunk, hc, hvalid, -⟩, hv⟩ := h.sound g hg
  refine ⟨rfl, rfl, rfl, rfl, fun id' chunk' hc' r hr => ?_, ?_⟩
  · obtain ⟨-, rfl⟩ := Function.closure.inj (hc.symm.trans hc')
    rw [hvalid.frameSize_eq] at hr
    have hwindow : InWindow gs (g.base + r) := by
      refine ⟨g, hg, by omega, ?_⟩
      simp only [Frame.top, hc]
      omega
    have := (h.agree _ hwindow).1
    rw [← Nat.add_assoc, ← Nat.add_assoc] at this
    exact this
  · refine h.agree.slice_eq (Nat.add_sub_assoc hv _) (Nat.add_sub_assoc hv _) fun j hj => ?_
    have hj : j < g.varargCount := hj
    refine ⟨g, hg, by omega, ?_⟩
    simp only [Frame.top, hc]
    omega

theorem Corresponds.sameCourse {host : Host} (hhost : host.Keeps Chunk.IsValid)
    {site site' : Site} {e e' : Nat} (he : e ≤ site.base.depth) (he' : e' ≤ site'.base.depth)
    (n : Nat) {gs : List Frame} {m m' : Machine} (hgs : gs ≠ [])
    (h : Corresponds site site' gs m m') :
    SameCourse site.base.depth site'.base.depth (course host e site.base.depth n m)
      (course host e' site'.base.depth n m') := by
  induction n generalizing gs m m' with
  | zero => exact .running h.world h.sameFrames
  | succ n ih =>
    cases gs with
    | nil => exact absurd rfl hgs
    | cons g gs =>
      -- the frame ends if a call that had started right below it would
      cases h.step hhost with
      | goOn gs₁ k k' hgs₁ hk hs hs' =>
        rw [course_of_next (hs _ (Nat.le_refl _)) (hs e he),
          course_of_next (hs' _ (Nat.le_refl _)) (hs' e' he')]
        exact ih hgs₁ hk
      | give g₁ k k' values hf hf' hw hvalid hvalues hs hs' =>
        rw [Site.frames_singleton] at hf hf'
        have hdone := leave_of_le hf (Nat.le_refl _) values
        have hdone' := leave_of_le hf' (Nat.le_refl _) values
        rw [← hs _ (Nat.le_refl _)] at hdone
        rw [← hs' _ (Nat.le_refl _)] at hdone'
        rw [course_of_done hdone, course_of_done hdone', hw]
        exact .returned _ _
      | fail k k' error hw hvalid herror hs hs' =>
        rw [course_of_failed (hs _ (Nat.le_refl _)) (hs e he),
          course_of_failed (hs' _ (Nat.le_refl _)) (hs' e' he'), hw]
        exact .failed _ _

/-- **Nothing leaks from the stack.** A closure over a valid chunk is entered on two machines, in
the same valid world, at the same depth and with the same arguments, but in any slots of any stacks.
Then it takes the same course on both. -/
theorem entered_alike {host : Host} (hhost : host.Keeps Chunk.IsValid) {k k' : Machine}
    (hworld : k.world = k'.world) (hvalid : k.world.Wraps Chunk.IsValid)
    (hdepth : k.depth = k'.depth) (hlimit : k.maxCallDepth = k'.maxCallDepth)
    (hroom : k.isFull = false) {id : Nat} {chunk : Chunk} (hchunk : chunk.IsValid)
    {slot slot' count : Nat}
    (hargs : k.stack.slice (slot + 1) count = k'.stack.slice (slot' + 1) count)
    (hwraps : ∀ v ∈ k.stack.slice (slot + 1) count, v.Wraps Chunk.IsValid)
    (expected expected' : Option Nat) {e e' : Nat} (he : e ≤ k.depth) (he' : e' ≤ k'.depth)
    (n : Nat) :
    SameCourse k.depth k'.depth
      (course host e k.depth n (k.enterClosure (.closure id chunk) chunk slot count expected))
      (course host e' k'.depth n
        (k'.enterClosure (.closure id chunk) chunk slot' count expected')) := by
  have hroom : k.depth < k.maxCallDepth := by
    simpa [isFull] using hroom
  have hlength := ValueStack.length_slice k.stack (slot + 1) count
  have hlies : k.stack.slice (slot + 1) (k.stack.slice (slot + 1) count).length =
      k.stack.slice (slot + 1) count := by rw [hlength]
  have hlies' : k'.stack.slice (slot' + 1) (k.stack.slice (slot + 1) count).length =
      k.stack.slice (slot + 1) count := by rw [hlength, hargs]
  have hentered := enterClosure_eq (.closure id chunk) chunk expected hlies
  have hentered' := enterClosure_eq (.closure id chunk) chunk expected' hlies'
  rw [hlength] at hentered hentered'
  rw [hentered, hentered']
  exact (Corresponds.entered expected expected' hworld hvalid hdepth hlimit hroom hchunk hwraps
    hlies hlies').sameCourse hhost he he' n (List.cons_ne_nil _ _)

end Machine

/-- A function that returns its argument and two registers that it has not written. -/
def Chunk.unwritten : Chunk :=
  { empty "unwritten" with
    parameterCount := 1
    maxStackSize := 3
    code := #[.abc .ret 0 3 0] }

/-- The argument lies at slot 1 of the one stack and at slot 2 of the other. What lies behind it
there does not come out. -/
theorem Machine.unwritten_alike :
    ∃ host : Host, ∃ k k' : Machine, k.stack.get 2 = .bool false ∧ k'.stack.get 3 = .string "old" ∧
      k.stack.slice 1 1 = k'.stack.slice 2 1 ∧ Chunk.unwritten.IsValid ∧
      SameCourse 0 0
        (course host 0 0 1 (k.enterClosure (.closure 0 .unwritten) .unwritten 0 1 none))
        (course host 0 0 1 (k'.enterClosure (.closure 0 .unwritten) .unwritten 1 1 none)) := by
  let host : Host := fun _ _ w => (.ok .nil, w)
  have hhost : host.Keeps Chunk.IsValid := by
    refine fun key call w hw _ => ⟨hw, fun v hv => ?_⟩
    obtain rfl := Except.ok.inj hv
    trivial
  let k : Machine := { idle 8 with stack := ⟨#[.nil, .bool true, .bool false]⟩ }
  let k' : Machine := { idle 8 with stack := ⟨#[.nil, .nil, .bool true, .string "old"]⟩ }
  have hvalid : Chunk.unwritten.IsValid := rfl
  have hworld : k.world = k'.world := rfl
  have hargs : k.stack.slice 1 1 = k'.stack.slice 2 1 := rfl
  have hwraps : ∀ v ∈ k.stack.slice 1 1, v.Wraps Chunk.IsValid :=
    List.forall_mem_singleton.2 trivial
  exact ⟨host, k, k', rfl, rfl, hargs, hvalid,
    entered_alike hhost hworld World.wraps_empty rfl rfl rfl hvalid hargs hwraps none none
      (Nat.le_refl _) (Nat.le_refl _) 1⟩

end RegisterMachine
