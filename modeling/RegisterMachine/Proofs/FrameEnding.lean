import RegisterMachine.Proofs.Convention
import RegisterMachine.Proofs.Isolation

/-!
# How a frame ends

A frame lies on top of some others. It ends when one of these goes on, with the values that the
frame leaves behind, or when the whole call fails; or it never ends. Frames that take its place by
tail calls count as the frame, and so does everything that is called from it, so the end is the
first moment at which no more frames are active than were below (`EndsWith`).

The course of a frame, as a host would see it that had called it, tells how the frame ends for its
caller (`Within.tells`).
-/

namespace RegisterMachine

namespace Machine

variable {host : Host} {e : Nat}

/-- After `n` steps of a call that started with `e` frames the machine is `last`, and until then
more than `depth` frames were active all the time. -/
structure Stays (host : Host) (e depth n : Nat) (m last : Machine) : Prop where
  steps : m.after host e n = some last
  away : ∀ k ≤ n, ∀ m', m.after host e k = some m' → depth < m'.depth

/-- How a frame ends that lies on top of some others. -/
inductive FrameEnding where
  /-- the frame below goes on, on this machine -/
  | resumes (m : Machine)
  | fails (error : RuntimeError)
  /-- the frame never ends -/
  | goesOn

/-- What becomes of the running frame of a machine, and of those that take its place, on top of
`depth` others. -/
inductive EndsWith (host : Host) (e depth : Nat) (m : Machine) : FrameEnding → Prop
  | resumes {n : Nat} {last m' : Machine} (h : Stays host e depth n m last)
      (hs : last.step host e = .next m') (hback : m'.depth ≤ depth) :
      EndsWith host e depth m (.resumes m')
  | fails {n : Nat} {last out : Machine} {error : RuntimeError} (h : Stays host e depth n m last)
      (hs : last.step host e = .failed out error) : EndsWith host e depth m (.fails error)
  | goesOn (h : ∀ n, ∃ last, Stays host e depth n m last) : EndsWith host e depth m .goesOn

/-- If the running frame fails, then not because the machine is full. -/
def NeverOverflows (host : Host) (e depth : Nat) (m : Machine) : Prop :=
  ∀ error, EndsWith host e depth m (.fails error) → error.root ≠ .stackOverflow m.maxCallDepth

section

variable {depth n : Nat} {m k last : Machine}

theorem Stays.refl (h : depth < m.depth) : Stays host e depth 0 m m := by
  refine ⟨rfl, fun k hk m' hm' => ?_⟩
  obtain rfl := Nat.le_zero.1 hk
  obtain rfl := Option.some.inj hm'
  exact h

theorem Stays.depth_lt (h : Stays host e depth n m last) : depth < last.depth :=
  h.away n (Nat.le_refl n) last h.steps

theorem Stays.cons (hs : m.step host e = .next k) (hm : depth < m.depth)
    (h : Stays host e depth n k last) : Stays host e depth (n + 1) m last := by
  refine ⟨after_succ_eq_some.2 ⟨k, hs, h.steps⟩, fun j hj m' hm' => ?_⟩
  cases j with
  | zero =>
    obtain rfl := Option.some.inj hm'
    exact hm
  | succ j =>
    obtain ⟨k', hs', hafter⟩ := after_succ_eq_some.1 hm'
    obtain rfl := Step.next.inj (hs.symm.trans hs')
    exact h.away j (Nat.le_of_succ_le_succ hj) m' hafter

theorem Stays.snoc (h : Stays host e depth n m last) (hs : last.step host e = .next k)
    (hk : depth < k.depth) : Stays host e depth (n + 1) m k := by
  have hafter : m.after host e (n + 1) = some k := after_succ_eq_some'.2 ⟨last, h.steps, hs⟩
  refine ⟨hafter, fun j hj m' hm' => ?_⟩
  rcases Nat.lt_or_eq_of_le hj with hlt | rfl
  · exact h.away j (Nat.le_of_lt_succ hlt) m' hm'
  · obtain rfl := Option.some.inj (hafter.symm.trans hm')
    exact hk

/-- Steps after which a frame is still there may be taken one by one. -/
theorem Stays.tail (h : Stays host e depth (n + 1) m last) :
    ∃ k, m.step host e = .next k ∧ Stays host e depth n k last := by
  obtain ⟨k, hs, hafter⟩ := after_succ_eq_some.1 h.steps
  refine ⟨k, hs, hafter, fun j hj m' hm' => ?_⟩
  exact h.away (j + 1) (Nat.succ_le_succ hj) m' (after_succ_eq_some.2 ⟨k, hs, hm'⟩)

theorem Stays.mono {depth' : Nat} (hle : depth' ≤ depth) (h : Stays host e depth n m last) :
    Stays host e depth' n m last :=
  ⟨h.steps, fun k hk m' hm' => Nat.lt_of_le_of_lt hle (h.away k hk m' hm')⟩

end

theorem EndsWith.goesOn_of_next {depth : Nat} {m k : Machine} (hs : m.step host e = .next k)
    (hm : depth < m.depth) (h : ∀ n, ∃ last, Stays host e depth n k last) :
    EndsWith host e depth m .goesOn := by
  refine .goesOn fun n => ?_
  cases n with
  | zero => exact ⟨m, .refl hm⟩
  | succ n =>
    obtain ⟨last, hlast⟩ := h n
    exact ⟨last, hlast.cons hs hm⟩

/-! ### There is one end -/

/-- The next step, if there is one, is the last of the frames above `depth` others. -/
def Leaves (host : Host) (e depth : Nat) (m : Machine) : Prop :=
  ∀ k, m.step host e = .next k → k.depth ≤ depth

section

variable {depth n n' : Nat} {m k last last' : Machine}

theorem leaves_of_next (hs : m.step host e = .next k) (hback : k.depth ≤ depth) :
    Leaves host e depth m := by
  intro k' hs'
  obtain rfl := Step.next.inj (hs.symm.trans hs')
  exact hback

theorem leaves_of_failed {out : Machine} {error : RuntimeError}
    (hs : m.step host e = .failed out error) : Leaves host e depth m := by
  intro k hs'
  rw [hs] at hs'
  cases hs'

theorem Stays.le_of_leaves (h : Stays host e depth n m last) (hleaves : Leaves host e depth last)
    (h' : Stays host e depth n' m last') : n' ≤ n := by
  -- the first step is taken off both runs; if one of them has no step left, the frame leaves
  induction n' generalizing m n with
  | zero => exact Nat.zero_le n
  | succ n' ih =>
    obtain ⟨k, hs, hk⟩ := h'.tail
    cases n with
    | zero =>
      obtain rfl := Option.some.inj h.steps
      exact absurd (hleaves k hs) (Nat.not_le.2 (hk.away 0 (Nat.zero_le _) k rfl))
    | succ n =>
      obtain ⟨k', hs', hk'⟩ := h.tail
      obtain rfl := Step.next.inj (hs.symm.trans hs')
      exact Nat.succ_le_succ (ih hk' hk)

theorem Stays.unique (h : Stays host e depth n m last) (hleaves : Leaves host e depth last)
    (h' : Stays host e depth n' m last') (hleaves' : Leaves host e depth last') : last = last' := by
  obtain rfl := Nat.le_antisymm (h'.le_of_leaves hleaves' h) (h.le_of_leaves hleaves h')
  exact Option.some.inj (h.steps.symm.trans h'.steps)

theorem Stays.not_goesOn (h : Stays host e depth n m last) (hleaves : Leaves host e depth last) :
    ¬ ∀ n', ∃ last', Stays host e depth n' m last' := by
  intro hall
  obtain ⟨last', h'⟩ := hall (n + 1)
  exact absurd (h.le_of_leaves hleaves h') (Nat.not_succ_le_self n)

theorem EndsWith.unique {x y : FrameEnding} (hx : EndsWith host e depth m x)
    (hy : EndsWith host e depth m y) : x = y := by
  cases hx with
  | resumes h hs hback =>
    have hleaves := leaves_of_next hs hback
    cases hy with
    | resumes h' hs' hback' =>
      obtain rfl := h.unique hleaves h' (leaves_of_next hs' hback')
      exact congrArg FrameEnding.resumes (Step.next.inj (hs.symm.trans hs'))
    | fails h' hs' =>
      obtain rfl := h.unique hleaves h' (leaves_of_failed hs')
      rw [hs] at hs'
      cases hs'
    | goesOn h' => exact absurd h' (h.not_goesOn hleaves)
  | fails h hs =>
    have hleaves : Leaves host e depth _ := leaves_of_failed hs
    cases hy with
    | resumes h' hs' hback' =>
      obtain rfl := h.unique hleaves h' (leaves_of_next hs' hback')
      rw [hs] at hs'
      cases hs'
    | fails h' hs' =>
      obtain rfl := h.unique hleaves h' (leaves_of_failed hs')
      rw [hs] at hs'
      exact congrArg FrameEnding.fails (Step.failed.inj hs').2
    | goesOn h' => exact absurd h' (h.not_goesOn hleaves)
  | goesOn h =>
    cases hy with
    | resumes h' hs' hback' => exact absurd h (h'.not_goesOn (leaves_of_next hs' hback'))
    | fails h' hs' => exact absurd h (h'.not_goesOn (leaves_of_failed hs'))
    | goesOn => rfl

end

/-! ### What a course tells -/

/-- What the course of a frame at a site tells about the run. -/
inductive Tells (host : Host) (e : Nat) (site : Site) (start k : Machine) (n : Nat) : Course → Prop
  | running {last : Machine} (h : Stays host e site.base.depth n k last) :
      Tells host e site start k n (.running last)
  | returned {j : Nat} {last m' : Machine} {world : World} {values : List Value}
      (h : Stays host e site.base.depth j k last) (hs : last.step host e = .next m')
      (hdelivered : Delivered site start values m') (hworld : m'.world = world) :
      Tells host e site start k n (.returned world values)
  | failed {j : Nat} {last out : Machine} {world : World} {error : RuntimeError}
      (h : Stays host e site.base.depth j k last) (hs : last.step host e = .failed out error) :
      Tells host e site start k n (.failed world error)
  | lost : Tells host e site start k n .lost

theorem Tells.cons {site : Site} {start m k : Machine} {n : Nat} {c : Course}
    (hs : m.step host e = .next k) (hm : site.base.depth < m.depth)
    (h : Tells host e site start k n c) : Tells host e site start m (n + 1) c := by
  cases h with
  | running h => exact .running (h.cons hs hm)
  | returned h hs' hdelivered hworld => exact .returned (h.cons hs hm) hs' hdelivered hworld
  | failed h hs' => exact .failed (h.cons hs hm) hs'
  | lost => exact .lost

theorem Within.tells {site : Site} {start k : Machine} (h : Within site start k)
    (he : e < site.base.depth) (n : Nat) :
    Tells host e site start k n (course host e site.base.depth n k) := by
  induction n generalizing k with
  | zero => exact .running (.refl h.depth_lt)
  | succ n ih =>
    have hdepth := h.depth_lt
    -- the course asks what a host would get that had called the frame
    cases hend : k.step host site.base.depth with
    | done out values =>
      obtain ⟨m', hs, hdelivered, hworld⟩ := h.step_done he hend
      rw [course_of_done hend]
      exact .returned (.refl hdepth) hs hdelivered hworld
    | next k' | failed k' error | stuck k' =>
      simp only [course, hend]
      cases hs : k.step host e with
      | next m' =>
        rcases h.step (Nat.zero_lt_of_lt he) hs with hm' | ⟨-, out, values, hdone, -⟩
        · exact (ih hm').cons hs hdepth
        · rw [hend] at hdone
          cases hdone
      | failed out error => exact .failed (.refl hdepth) hs
      | done | stuck => exact .lost

theorem Within.stays_of_running {site : Site} {start k last : Machine} (h : Within site start k)
    (he : e < site.base.depth) {n : Nat}
    (hc : course host e site.base.depth n k = .running last) :
    Stays host e site.base.depth n k last := by
  have ht : Tells host e site start k n (course host e site.base.depth n k) := h.tells he n
  rw [hc] at ht
  cases ht with
  | running hlast => exact hlast

end Machine

end RegisterMachine
