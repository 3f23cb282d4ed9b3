import RegisterMachine.Proofs.ArgumentChecks

/-!
# The range of a perspective

A perspective checks the distances of its planes, and one that is given an angle of view checks the
angle. The checks name what is refused: a distance that is not above zero, a near plane that is not
in front of the far one, an angle that is not between zero and `pi`. Numbers that compare are
refused just if they are not in range. A NaN compares with nothing, so it passes, and what is
accepted is more than what is in range (`Perspective.accepts_unless_seen_out_of_range`).
-/

namespace RegisterMachine

/-! ### Numbers that compare -/

namespace Binary32

open Float.Model

theorem eq_notANumber {a : UnpackedFloat} (h : a.isNaN = true) : a = .notANumber := by
  cases a with
  | notANumber => rfl
  | infinity | zero | finite => cases h

theorem exists_compare_eq_some {a b : UnpackedFloat} (ha : a.isNaN = false)
    (hb : b.isNaN = false) : ∃ o, a.compare b = some o := by
  cases a with
  | notANumber => cases ha
  | infinity s =>
    cases b with
    | notANumber => cases hb
    | infinity t => exact ⟨_, rfl⟩
    | zero | finite => cases s <;> exact ⟨_, rfl⟩
  | zero s =>
    cases b with
    | notANumber => cases hb
    | zero t => exact ⟨_, rfl⟩
    | infinity t | finite t m e h => cases t <;> exact ⟨_, rfl⟩
  | finite s m e h =>
    cases b with
    | notANumber => cases hb
    | zero t => cases s <;> exact ⟨_, rfl⟩
    | infinity t => cases t <;> exact ⟨_, rfl⟩
    | finite t m' e' h' => cases s <;> cases t <;> exact ⟨_, rfl⟩

theorem compare_eq_none_iff (a b : UnpackedFloat) :
    a.compare b = none ↔ a.isNaN = true ∨ b.isNaN = true := by
  constructor
  · intro hnone
    cases ha : a.isNaN with
    | true => exact .inl rfl
    | false =>
      cases hb : b.isNaN with
      | true => exact .inr rfl
      | false =>
        obtain ⟨o, ho⟩ := exists_compare_eq_some ha hb
        rw [hnone] at ho
        cases ho
  · rintro (ha | hb)
    · rw [eq_notANumber ha]
      rfl
    · rw [eq_notANumber hb]
      cases a <;> rfl

/-- The order of exponents, and of significands if these are equal, turns around with them. -/
theorem compare_parts_swap (m m' : Nat) (e e' : Int) :
    (compare e' e).then (compare m' m) = ((compare e e').then (compare m m')).swap := by
  rw [Ordering.swap_then, Int.compare_swap, Nat.compare_swap]

theorem compare_swap (a b : UnpackedFloat) :
    b.compare a = (a.compare b).map Ordering.swap := by
  cases a with
  | notANumber => cases b <;> rfl
  | infinity s =>
    cases b with
    | infinity t => cases s <;> cases t <;> rfl
    | finite t m e h => cases s <;> rfl
    | _ => cases s <;> rfl
  | zero s =>
    cases b with
    | finite t m e h => cases t <;> rfl
    | infinity t => cases t <;> rfl
    | _ => rfl
  | finite s m e h =>
    cases b with
    | finite t m' e' h' =>
      cases s <;> cases t
      · exact congrArg (fun o => some o.swap) (compare_parts_swap m m' e e')
      · rfl
      · rfl
      · exact congrArg some (compare_parts_swap m m' e e')
    | infinity t => cases t <;> rfl
    | _ => cases s <;> rfl

theorem le_iff (x y : Float32) :
    x ≤ y ↔ (x.toModel.unpack.compare y.toModel.unpack).any (·.isLE) = true :=
  decide_eq_true_iff

theorem lt_iff (x y : Float32) :
    x < y ↔ x.toModel.unpack.compare y.toModel.unpack = some .lt :=
  decide_eq_true_iff.trans beq_iff_eq

/-- Of two numbers that compare one is below the other one, or not above it. -/
theorem not_le_iff (x y : Float32) :
    ¬ x ≤ y ↔ x.isNaN = true ∨ y.isNaN = true ∨ y < x := by
  have hnan : x.toModel.unpack.compare y.toModel.unpack = none ↔
      x.isNaN = true ∨ y.isNaN = true := compare_eq_none_iff _ _
  rw [← or_assoc, ← hnan, le_iff, lt_iff, compare_swap x.toModel.unpack]
  cases x.toModel.unpack.compare y.toModel.unpack with
  | none => simp
  | some o => cases o <;> simp

theorem zero_compare_eq_lt {a b : UnpackedFloat}
    (ha : (UnpackedFloat.zero .positive).compare a = some .lt) (hab : a.compare b = some .lt) :
    (UnpackedFloat.zero .positive).compare b = some .lt := by
  cases a with
  | notANumber => cases ha
  | zero s => cases ha
  | infinity s =>
    cases s with
    | negative => cases ha
    | positive => cases b with
      | infinity t => cases t <;> cases hab
      | _ => cases hab
  | finite s m e h =>
    cases s with
    | negative => cases ha
    | positive => cases b with
      | infinity t => cases t with
        | positive => rfl
        | negative => cases hab
      | finite t m' e' h' => cases t with
        | positive => rfl
        | negative => cases hab
      | _ => cases hab

theorem pos_of_lt {x y : Float32} (hx : 0 < x) (hxy : x < y) : 0 < y := by
  have hzero : (0 : Float32).toModel.unpack = .zero .positive := rfl
  rw [lt_iff, hzero] at hx ⊢
  rw [lt_iff] at hxy
  exact zero_compare_eq_lt hx hxy

end Binary32

/-! ### What the checks let through -/

/-- The distances of the planes as far as they compare: both are positive, and the near plane is in
front of the far one. -/
def PlanesPass (near far : Float32) : Prop :=
  (near.isNaN = true ∨ 0 < near) ∧ (far.isNaN = true ∨ 0 < far) ∧
    (near.isNaN = true ∨ far.isNaN = true ∨ near < far)

def AnglePasses (angle : Float32) : Prop :=
  angle.isNaN = true ∨ 0 < angle ∧ angle < Binary32.pi

theorem planesPass_iff_of_not_nan {near far : Float32} (hnear : near.isNaN = false)
    (hfar : far.isNaN = false) : PlanesPass near far ↔ 0 < near ∧ near < far := by
  simp only [PlanesPass, hnear, hfar, Bool.false_eq_true, false_or]
  exact ⟨fun h => ⟨h.1, h.2.2⟩, fun h => ⟨h.1, Binary32.pos_of_lt h.1 h.2, h.2⟩⟩

theorem anglePasses_iff_of_not_nan {angle : Float32} (h : angle.isNaN = false) :
    AnglePasses angle ↔ 0 < angle ∧ angle < Binary32.pi := by
  simp only [AnglePasses, h, Bool.false_eq_true, false_or]

theorem not_le_zero_iff (x : Float32) : ¬ x ≤ 0 ↔ x.isNaN = true ∨ 0 < x := by
  have hzero : (0 : Float32).isNaN = false := rfl
  rw [Binary32.not_le_iff, hzero]
  simp only [Bool.false_eq_true, false_or]

theorem refusePlanes?_eq_none_iff (index : Nat) (near far : Float32) :
    refusePlanes? index near far = none ↔ PlanesPass near far := by
  have horder : ¬ far ≤ near ↔ near.isNaN = true ∨ far.isNaN = true ∨ near < far := by
    rw [Binary32.not_le_iff]
    exact or_left_comm
  rw [PlanesPass, ← not_le_zero_iff, ← not_le_zero_iff, ← horder, refusePlanes?]
  by_cases hnear : near ≤ 0
  · simp [hnear]
  · by_cases hfar : far ≤ 0
    · simp [hnear, hfar]
    · by_cases hnf : far ≤ near
      · simp [hnear, hfar, hnf]
      · simp [hnear, hfar, hnf]

theorem refuseAngle?_eq_none_iff (angle : Float32) :
    refuseAngle? angle = none ↔ AnglePasses angle := by
  have hpi : Binary32.pi.isNaN = false := rfl
  have hhigh : ¬ Binary32.pi ≤ angle ↔ angle.isNaN = true ∨ angle < Binary32.pi := by
    rw [Binary32.not_le_iff, hpi]
    simp only [Bool.false_eq_true, false_or]
  rw [AnglePasses, or_and_left, ← not_le_zero_iff, ← hhigh, refuseAngle?]
  by_cases hlow : angle ≤ 0
  · simp [hlow]
  · by_cases hpi : Binary32.pi ≤ angle
    · simp [hlow, hpi]
    · simp [hlow, hpi]

/-! ### Perspectives -/

inductive Perspective where
  | ofSize
  | offCenter
  | ofAngle
  deriving DecidableEq, Repr, Inhabited

namespace Perspective

def function : Perspective → LibraryFunction
  | ofSize => .mat4Perspective
  | offCenter => .mat4PerspectiveOffCenter
  | ofAngle => .mat4PerspectiveFov

/-- The index of the distance of the near plane. The one of the far plane comes behind it. -/
def near : Perspective → Nat
  | ofSize | ofAngle => 2
  | offCenter => 4

def angle? : Perspective → Option Nat
  | ofSize | offCenter => none
  | ofAngle => some 0

/-- Nothing is wrong with the arguments that are checked, as far as they compare. -/
def Passes (p : Perspective) (number : Nat → Float32) : Prop :=
  PlanesPass (number p.near) (number (p.near + 1)) ∧ ∀ i ∈ p.angle?, AnglePasses (number i)

def InRange (p : Perspective) (number : Nat → Float32) : Prop :=
  (0 < number p.near ∧ number p.near < number (p.near + 1)) ∧
    ∀ i ∈ p.angle?, 0 < number i ∧ number i < Binary32.pi

def checked (p : Perspective) : List Nat := p.angle?.toList ++ [p.near, p.near + 1]

/-- An argument is out of range by itself, or the near plane is behind the far one. -/
def IsOffending (p : Perspective) (number : Nat → Float32) (i : Nat) : Prop :=
  (i ∈ p.angle? ∧ (number i ≤ 0 ∨ Binary32.pi ≤ number i)) ∨
    (i = p.near ∧ (number i ≤ 0 ∨ number (i + 1) ≤ number i)) ∨ (i = p.near + 1 ∧ number i ≤ 0)

theorem passes_iff_inRange {p : Perspective} {number : Nat → Float32}
    (h : ∀ i ∈ p.checked, (number i).isNaN = false) : p.Passes number ↔ p.InRange number := by
  have hplanes := planesPass_iff_of_not_nan (h p.near (by simp [checked]))
    (h (p.near + 1) (by simp [checked]))
  have hangle (i : Nat) (hi : i ∈ p.angle?) :=
    anglePasses_iff_of_not_nan (h i (List.mem_append_left _ (Option.mem_toList.2 hi)))
  exact and_congr hplanes (forall₂_congr hangle)

end Perspective

theorem offending_of_refusePlanes? {index : Nat} {near far : Float32} {r : Refusal}
    (h : refusePlanes? index near far = some r) :
    r.index = index ∧ (near ≤ 0 ∨ far ≤ near) ∨ r.index = index + 1 ∧ far ≤ 0 := by
  unfold refusePlanes? at h
  split at h
  · rename_i hnear
    cases h
    exact .inl ⟨rfl, .inl hnear⟩
  · split at h
    · rename_i hfar
      cases h
      exact .inr ⟨rfl, hfar⟩
    · split at h
      · rename_i horder
        cases h
        exact .inl ⟨rfl, .inr horder⟩
      · cases h

theorem offending_of_refuseAngle? {angle : Float32} {r : Refusal}
    (h : refuseAngle? angle = some r) : r.index = 0 ∧ (angle ≤ 0 ∨ Binary32.pi ≤ angle) := by
  unfold refuseAngle? at h
  split at h
  · rename_i hangle
    cases h
    exact ⟨rfl, by simpa using hangle⟩
  · cases h

namespace Perspective

theorem rangeError?_eq_none_iff (p : Perspective) (number : Nat → Float32) :
    p.function.rangeError? number = none ↔ p.Passes number := by
  rw [Passes, ← refusePlanes?_eq_none_iff p.near]
  cases p with
  | ofSize => exact (and_iff_left nofun).symm
  | offCenter => exact (and_iff_left nofun).symm
  | ofAngle =>
    have hangle : (∀ i ∈ ofAngle.angle?, AnglePasses (number i)) ↔
        refuseAngle? (number 0) = none := by
      rw [refuseAngle?_eq_none_iff]
      exact ⟨fun h => h 0 rfl, fun h i hi => Option.some.inj hi ▸ h⟩
    rw [hangle, function, LibraryFunction.rangeError?, Option.orElse_apply, Option.orElse_eq_or,
      Option.or_eq_none_iff]
    exact and_comm

theorem offending_of_rangeError? {p : Perspective} {number : Nat → Float32} {r : Refusal}
    (h : p.function.rangeError? number = some r) : p.IsOffending number r.index := by
  have hplanes (h : refusePlanes? p.near (number p.near) (number (p.near + 1)) = some r) :
      p.IsOffending number r.index := by
    rcases offending_of_refusePlanes? h with ⟨hi, hwrong⟩ | ⟨hi, hwrong⟩
    · rw [IsOffending, hi]
      exact .inr (.inl ⟨rfl, hwrong⟩)
    · rw [IsOffending, hi]
      exact .inr (.inr ⟨rfl, hwrong⟩)
  cases p with
  | ofSize => exact hplanes h
  | offCenter => exact hplanes h
  | ofAngle =>
    rw [function, LibraryFunction.rangeError?, Option.orElse_apply, Option.orElse_eq_or] at h
    rcases Option.or_eq_some_iff.1 h with hangle | ⟨-, h⟩
    · obtain ⟨hi, hwrong⟩ := offending_of_refuseAngle? hangle
      rw [IsOffending, hi]
      exact .inl ⟨rfl, hwrong⟩
    · exact hplanes h

/-- **A perspective accepts what it does not see to be out of range.** It has a value just if its
arguments fit and those that are checked pass, where a NaN passes; of numbers that all compare, just
those in range pass. If its arguments fit and it has no value, it complains about an argument that
is out of range. -/
theorem accepts_unless_seen_out_of_range (p : Perspective) (call : NativeCall) (w : World) :
    ((∃ v, (p.function.run call w).1 = .ok v) ↔
      call.AllFit w p.function.signature ∧ p.Passes call.number) ∧
    ((∀ i ∈ p.checked, (call.number i).isNaN = false) →
      (p.Passes call.number ↔ p.InRange call.number)) ∧
    (call.AllFit w p.function.signature → ¬ p.Passes call.number →
      ∃ i reason, p.IsOffending call.number i ∧
        p.function.run call w = (.error (.badArgument (i + 1) call.name reason), w)) := by
  have hfit (h : call.AllFit w p.function.signature) := LibraryFunction.run_of_allFit h
  refine ⟨⟨?_, ?_⟩, passes_iff_inRange, ?_⟩
  · rintro ⟨v, hv⟩
    have hall : call.AllFit w p.function.signature := by
      apply Classical.byContradiction
      intro hunfit
      obtain ⟨i, q, hfirst⟩ := NativeCall.exists_firstUnfit hunfit
      rw [LibraryFunction.run_of_firstUnfit hfirst] at hv
      cases hv
    refine ⟨hall, ?_⟩
    rw [← rangeError?_eq_none_iff]
    cases hr : p.function.rangeError? call.number with
    | none => rfl
    | some r =>
      rw [(hfit hall).1 r hr] at hv
      cases hv
  · rintro ⟨hall, hpasses⟩
    exact (hfit hall).2 ((p.rangeError?_eq_none_iff _).2 hpasses)
  · intro hall hpasses
    cases hr : p.function.rangeError? call.number with
    | none => exact absurd ((p.rangeError?_eq_none_iff _).1 hr) hpasses
    | some r => exact ⟨r.index, r.reason, offending_of_rangeError? hr, (hfit hall).1 r hr⟩

/-- A near plane at no distance is accepted. -/
example : (ofSize.function.run
      ⟨"mat4.make_perspective", [.number 2, .number 2, .number (0 / 0), .number 3]⟩ .empty).1 =
    .ok (.table 1) := rfl

end Perspective

end RegisterMachine
