import RegisterMachine.Library.Evaluation

/-!
# The checks of arguments

A function of a library says by its signature what its arguments have to be (`Parameter.Fits`); an
argument that is missing is nil. Reading an argument comes to an operand if it fits, and to its
complaint if it does not (`NativeCall.operand_of_fits`, `NativeCall.operand_of_unfit`). The
arguments are read from left to right, so the first one that does not fit is the one that a call
complains about (`NativeCall.operands_of_unfit`). Only when all of them fit are there operands to
compute with, and only then can a perspective refuse what it is asked to show
(`LibraryFunction.compute_spec`).

A function sees its arguments along its signature and no further, and all that it does to the world
is to add its result.
-/

namespace RegisterMachine

/-! ### What fits -/

/-- A value is a table whose array part has `n` elements, all of them numbers. -/
def World.HoldsNumbers (w : World) (n : Nat) (v : Value) : Prop :=
  ∃ id, v = .table id ∧ (w.table id).array.size = n ∧
    ∀ x ∈ (w.table id).array, ∃ y, x = .number y

namespace Parameter

def Fits (w : World) (v : Value) : Parameter → Prop
  | scalar => ∃ x, v = .number x
  | vec3 => w.HoldsNumbers 3 v
  | vec4 => w.HoldsNumbers 4 v
  | mat4 => w.HoldsNumbers 16 v
  | factor =>
    match v with
    | .table _ => w.HoldsNumbers 16 v
    | _ => ∃ x, v = .number x

def scalarComplaint (v : Value) : String := "number expected, got " ++ v.kind.name

/-- What is said about an argument that is no table, or a table that holds something else. -/
def elementsComplaint (message : String) (v : Value) : String :=
  match v with
  | .table _ => message
  | _ => "table expected, got " ++ v.kind.name

def complaint (v : Value) : Parameter → String
  | scalar => scalarComplaint v
  | vec3 => elementsComplaint "Invalid vec3. Three numeric elements required" v
  | vec4 => elementsComplaint "Invalid vec4. Four numeric elements required" v
  | mat4 => elementsComplaint "Invalid mat4x4. 16 numeric elements required" v
  | factor =>
    match v with
    | .table _ => elementsComplaint "Invalid mat4x4. 16 numeric elements required" v
    | _ => scalarComplaint v

theorem factor_of_table {v : Value} {id : TableId} (h : v.asTable? = some id) (w : World) :
    (factor.Fits w v ↔ mat4.Fits w v) ∧ factor.complaint v = mat4.complaint v := by
  cases v <;> cases h
  exact ⟨Iff.rfl, rfl⟩

theorem factor_of_no_table {v : Value} (h : v.asTable? = none) (w : World) :
    (factor.Fits w v ↔ scalar.Fits w v) ∧ factor.complaint v = scalar.complaint v := by
  cases v <;> cases h <;> exact ⟨Iff.rfl, rfl⟩

end Parameter

namespace NativeCall

def AllFit (call : NativeCall) (w : World) (ps : List Parameter) : Prop :=
  ∀ (i : Nat) (p : Parameter), ps[i]? = some p → p.Fits w (call.argument i)

/-- The argument at an index is the first one along a signature that does not fit its parameter. -/
structure FirstUnfit (call : NativeCall) (w : World) (ps : List Parameter) (i : Nat)
    (p : Parameter) : Prop where
  parameter : ps[i]? = some p
  unfit : ¬ p.Fits w (call.argument i)
  before : ∀ j q, j < i → ps[j]? = some q → q.Fits w (call.argument j)

theorem exists_firstUnfit {call : NativeCall} {w : World} {ps : List Parameter}
    (h : ¬ call.AllFit w ps) : ∃ i p, call.FirstUnfit w ps i p := by
  apply Classical.byContradiction
  intro hnone
  apply h
  intro i
  induction i using Nat.strongRecOn with
  | ind i ih =>
    intro p hp
    apply Classical.byContradiction
    intro hunfit
    exact hnone ⟨i, p, hp, hunfit, fun j q hj hq => ih j hj q hq⟩

end NativeCall

/-! ### Reading one argument -/

theorem Vec3.exists_ofList?_iff (l : List Float32) :
    (∃ v, Vec3.ofList? l = some v) ↔ l.length = 3 := by
  constructor
  · rintro ⟨v, h⟩
    unfold ofList? at h
    split at h
    · rfl
    · cases h
  · intro h
    match l, h with
    | [_, _, _], _ => exact ⟨_, rfl⟩

theorem Vec4.exists_ofList?_iff (l : List Float32) :
    (∃ v, Vec4.ofList? l = some v) ↔ l.length = 4 := by
  constructor
  · rintro ⟨v, h⟩
    unfold ofList? at h
    split at h
    · rfl
    · cases h
  · intro h
    match l, h with
    | [_, _, _, _], _ => exact ⟨_, rfl⟩

theorem Mat4.exists_ofList?_iff (l : List Float32) :
    (∃ m, Mat4.ofList? l = some m) ↔ l.length = 16 := by
  constructor
  · rintro ⟨m, h⟩
    unfold ofList? at h
    split at h
    · rfl
    · cases h
  · intro h
    match l, h with
    | [_, _, _, _, _, _, _, _, _, _, _, _, _, _, _, _], _ => exact ⟨_, rfl⟩

namespace NativeCall

theorem elements?_cons (v : Value) (values : List Value) :
    elements? (v :: values) =
      (v.asNumber?.map Binary32.narrow).bind fun x => (elements? values).map (x :: ·) := by
  simp only [elements?, List.mapM_cons]
  cases v.asNumber?.map Binary32.narrow with
  | none => rfl
  | some x =>
    cases values.mapM fun v => v.asNumber?.map Binary32.narrow with
    | none => rfl
    | some l => rfl

/-- The elements of an array can be read if they are numbers. -/
theorem elements?_of_numbers {values : List Value} (h : ∀ v ∈ values, ∃ x, v = .number x) :
    ∃ l, elements? values = some l ∧ l.length = values.length := by
  induction values with
  | nil => exact ⟨[], rfl, rfl⟩
  | cons v values ih =>
    obtain ⟨⟨x, rfl⟩, hrest⟩ := List.forall_mem_cons.1 h
    obtain ⟨l, hl, hlength⟩ := ih hrest
    exact ⟨Binary32.narrow x :: l, by simp [elements?_cons, hl, Value.asNumber?], by simp [hlength]⟩

theorem elements?_eq_some {values : List Value} {l : List Float32} (h : elements? values = some l) :
    (∀ v ∈ values, ∃ x, v = .number x) ∧ l.length = values.length := by
  induction values generalizing l with
  | nil =>
    cases h
    exact ⟨nofun, rfl⟩
  | cons v values ih =>
    rw [elements?_cons] at h
    obtain ⟨x, hx, h⟩ := Option.bind_eq_some_iff.1 h
    obtain ⟨l, hl, rfl⟩ := Option.map_eq_some_iff.1 h
    obtain ⟨hrest, hlength⟩ := ih hl
    obtain ⟨y, hy, -⟩ := Option.map_eq_some_iff.1 hx
    have hv : v = .number y := by
      cases v <;> cases hy
      rfl
    exact ⟨List.forall_mem_cons.2 ⟨⟨y, hv⟩, hrest⟩, by simp [hlength]⟩

section

variable {call : NativeCall} {w : World} {i : Nat}

theorem scalarArgument_of_number {x : Float} (h : call.argument i = .number x) :
    call.scalarArgument i = .ok (Binary32.narrow x) := by
  simp only [scalarArgument, numberArgument, h]
  rfl

theorem scalarArgument_of_unfit (h : ¬ ∃ x, call.argument i = .number x) :
    call.scalarArgument i =
      .error (call.badArgument i (Parameter.scalarComplaint (call.argument i))) := by
  have hnumber : call.numberArgument i = .error (call.unexpected i .number) := by
    unfold numberArgument
    split
    · rename_i x hx
      exact absurd ⟨x, hx⟩ h
    · rfl
  rw [scalarArgument, hnumber]
  rfl

section

variable {α : Type} {ofList? : List Float32 → Option α} {n : Nat} {message : String}

theorem elementsArgument_of_table {id : TableId} (hid : call.argument i = .table id) :
    call.elementsArgument w ofList? message i =
      ((elements? (w.table id).array.toList).bind ofList?).elim
        (.error (call.badArgument i message)) .ok := by
  simp only [elementsArgument, tableArgument, hid, bind, Except.bind]
  cases (elements? (w.table id).array.toList).bind ofList? <;> rfl

theorem elementsArgument_of_holdsNumbers (hsize : ∀ l, (∃ a, ofList? l = some a) ↔ l.length = n)
    (h : w.HoldsNumbers n (call.argument i)) :
    ∃ a, call.elementsArgument w ofList? message i = .ok a := by
  obtain ⟨id, hid, hn, hnumbers⟩ := h
  obtain ⟨l, hl, hlength⟩ := elements?_of_numbers fun v hv => hnumbers v (Array.mem_toList_iff.1 hv)
  obtain ⟨a, ha⟩ := (hsize l).2 (by rw [hlength, Array.length_toList, hn])
  refine ⟨a, ?_⟩
  rw [elementsArgument_of_table hid, hl, Option.bind_some, ha]
  rfl

theorem elementsArgument_of_unfit (hsize : ∀ l, (∃ a, ofList? l = some a) ↔ l.length = n)
    (h : ¬ w.HoldsNumbers n (call.argument i)) :
    call.elementsArgument w ofList? message i =
      .error (call.badArgument i (Parameter.elementsComplaint message (call.argument i))) := by
  cases hv : call.argument i with
  | table id =>
    have hnone : (elements? (w.table id).array.toList).bind ofList? = none := by
      refine Option.eq_none_iff_forall_not_mem.2 fun a ha => h ?_
      obtain ⟨l, hl, ha⟩ := Option.bind_eq_some_iff.1 ha
      obtain ⟨hnumbers, hlength⟩ := elements?_eq_some hl
      rw [(hsize l).1 ⟨a, ha⟩, Array.length_toList] at hlength
      exact ⟨id, hv, hlength.symm, fun v hv => hnumbers v (Array.mem_toList_iff.2 hv)⟩
    rw [elementsArgument_of_table hv, hnone]
    rfl
  | _ =>
    simp only [elementsArgument, tableArgument, hv, unexpected]
    rfl

end

theorem operand_factor_of_table {id : TableId} (h : (call.argument i).asTable? = some id) :
    call.operand w i .factor = (call.mat4Argument w i).map Factor.mat4 := by
  simp only [operand, h]
  rfl

theorem operand_factor_of_no_table (h : (call.argument i).asTable? = none) :
    call.operand w i .factor = (call.scalarArgument i).map Factor.scalar := by
  simp only [operand, h]
  rfl

theorem operand_of_fits {p : Parameter} (h : p.Fits w (call.argument i)) :
    ∃ o, call.operand w i p = .ok o := by
  have hscalar (h : ∃ x, call.argument i = .number x) : ∃ o, call.scalarArgument i = .ok o := by
    obtain ⟨x, hx⟩ := h
    exact ⟨_, scalarArgument_of_number hx⟩
  cases p with
  | scalar => exact hscalar h
  | vec3 => exact elementsArgument_of_holdsNumbers Vec3.exists_ofList?_iff h
  | vec4 => exact elementsArgument_of_holdsNumbers Vec4.exists_ofList?_iff h
  | mat4 => exact elementsArgument_of_holdsNumbers Mat4.exists_ofList?_iff h
  | factor =>
    cases hv : (call.argument i).asTable? with
    | some id =>
      obtain ⟨m, hm⟩ := elementsArgument_of_holdsNumbers Mat4.exists_ofList?_iff
        ((Parameter.factor_of_table hv w).1.1 h)
      exact ⟨_, by rw [operand_factor_of_table hv, mat4Argument, hm]; rfl⟩
    | none =>
      obtain ⟨x, hx⟩ := hscalar ((Parameter.factor_of_no_table hv w).1.1 h)
      exact ⟨_, by rw [operand_factor_of_no_table hv, hx]; rfl⟩

theorem operand_of_unfit {p : Parameter} (h : ¬ p.Fits w (call.argument i)) :
    call.operand w i p = .error (call.badArgument i (p.complaint (call.argument i))) := by
  cases p with
  | scalar => exact scalarArgument_of_unfit h
  | vec3 => exact elementsArgument_of_unfit Vec3.exists_ofList?_iff h
  | vec4 => exact elementsArgument_of_unfit Vec4.exists_ofList?_iff h
  | mat4 => exact elementsArgument_of_unfit Mat4.exists_ofList?_iff h
  | factor =>
    cases hv : (call.argument i).asTable? with
    | some id =>
      obtain ⟨hfits, hcomplaint⟩ := Parameter.factor_of_table hv w
      rw [hfits] at h
      rw [operand_factor_of_table hv, hcomplaint, mat4Argument,
        elementsArgument_of_unfit Mat4.exists_ofList?_iff h]
      rfl
    | none =>
      obtain ⟨hfits, hcomplaint⟩ := Parameter.factor_of_no_table hv w
      rw [hfits] at h
      rw [operand_factor_of_no_table hv, hcomplaint, scalarArgument_of_unfit h]
      rfl

end

/-! ### Reading the arguments along a signature -/

section

variable {call : NativeCall} {w : World}

theorem operands_cons_of_error {p : Parameter} {e : RuntimeError} {i : Nat}
    (h : call.operand w i p = .error e) (ps : List Parameter) :
    call.operands w i (p :: ps) = .error e := by
  simp only [operands, h]

theorem operands_cons_of_ok {p : Parameter} {o : p.Operand} {i : Nat}
    (h : call.operand w i p = .ok o) (ps : List Parameter) :
    call.operands w i (p :: ps) =
      (call.operands w (i + 1) ps).map fun os => ((o, os) : Operands (p :: ps)) := by
  simp only [operands, h]
  rfl

theorem operands_of_fit {ps : List Parameter} (start : Nat)
    (h : ∀ (j : Nat) (p : Parameter), ps[j]? = some p → p.Fits w (call.argument (start + j))) :
    ∃ os, call.operands w start ps = .ok os := by
  induction ps generalizing start with
  | nil => exact ⟨(), rfl⟩
  | cons p ps ih =>
    have hfirst := h 0 p rfl
    rw [Nat.add_zero] at hfirst
    obtain ⟨o, ho⟩ := operand_of_fits hfirst
    obtain ⟨os, hos⟩ := ih (start + 1) fun j q hq => by
      rw [Nat.add_assoc, Nat.add_comm 1]
      exact h (j + 1) q hq
    exact ⟨(o, os), by rw [operands_cons_of_ok ho, hos]; rfl⟩

theorem operands_of_unfit {ps : List Parameter} {i : Nat} {p : Parameter} (start : Nat)
    (hp : ps[i]? = some p) (hunfit : ¬ p.Fits w (call.argument (start + i)))
    (hbefore : ∀ (j : Nat) (q : Parameter), j < i → ps[j]? = some q →
      q.Fits w (call.argument (start + j))) :
    call.operands w start ps =
      .error (call.badArgument (start + i) (p.complaint (call.argument (start + i)))) := by
  induction ps generalizing start i with
  | nil => cases hp
  | cons q ps ih =>
    cases i with
    | zero =>
      cases hp
      exact operands_cons_of_error (operand_of_unfit hunfit) ps
    | succ i =>
      have hfirst := hbefore 0 q (by omega) rfl
      rw [Nat.add_zero] at hfirst
      obtain ⟨o, ho⟩ := operand_of_fits hfirst
      rw [← Nat.add_assoc, Nat.add_right_comm] at hunfit ⊢
      have hrest := ih (start + 1) hp hunfit fun j r hj hr => by
        rw [Nat.add_assoc, Nat.add_comm 1]
        exact hbefore (j + 1) r (by omega) hr
      rw [operands_cons_of_ok ho, hrest]
      rfl

def number (call : NativeCall) (i : Nat) : Float32 :=
  ((call.argument i).asNumber?.map Binary32.narrow).getD 0

theorem scalarArgument_eq_ok {i : Nat} {x : Float32} (h : call.scalarArgument i = .ok x) :
    x = call.number i := by
  by_cases hnumber : ∃ y, call.argument i = .number y
  · obtain ⟨y, hy⟩ := hnumber
    rw [scalarArgument_of_number hy] at h
    cases h
    simp [number, hy, Value.asNumber?]
  · rw [scalarArgument_of_unfit hnumber] at h
    cases h

theorem operands_scalar_cons {ps : List Parameter} {i : Nat} {x : Float32} {os : Operands ps}
    (h : call.operands w i (.scalar :: ps) = .ok (x, os)) :
    x = call.number i ∧ call.operands w (i + 1) ps = .ok os := by
  cases hread : call.operand w i .scalar with
  | error e =>
    rw [operands_cons_of_error hread] at h
    cases h
  | ok y =>
    rw [operands_cons_of_ok hread] at h
    cases hrest : call.operands w (i + 1) ps with
    | error e =>
      rw [hrest] at h
      cases h
    | ok os' =>
      rw [hrest] at h
      cases h
      exact ⟨scalarArgument_eq_ok hread, rfl⟩

end

end NativeCall

/-! ### Ranges -/

namespace LibraryFunction

/-- What a function refuses to show. The distances of the planes and the angle are among its
arguments. -/
def rangeError? (number : Nat → Float32) : LibraryFunction → Option Refusal
  | mat4Perspective => refusePlanes? 2 (number 2) (number 3)
  | mat4PerspectiveOffCenter => refusePlanes? 4 (number 4) (number 5)
  | mat4PerspectiveFov => refuseAngle? (number 0) <|> refusePlanes? 2 (number 2) (number 3)
  | _ => none

theorem unlessRefused_spec (refusal : Option Refusal) (result : LibraryResult) :
    (∀ r, refusal = some r → unlessRefused refusal result = .error r) ∧
    (refusal = none → ∃ result', unlessRefused refusal result = .ok result') := by
  constructor
  · rintro r rfl
    rfl
  · rintro rfl
    exact ⟨result, rfl⟩

/-- Operands are computed with unless they are out of range. -/
theorem compute_spec {f : LibraryFunction} {call : NativeCall} {w : World}
    {os : Operands f.signature} (h : call.operands w 0 f.signature = .ok os) :
    (∀ r, f.rangeError? call.number = some r → f.compute os = .error r) ∧
    (f.rangeError? call.number = none → ∃ result, f.compute os = .ok result) := by
  cases f with
  | mat4Perspective =>
    obtain ⟨width, height, near, far, _⟩ := os
    obtain ⟨-, h⟩ := NativeCall.operands_scalar_cons h
    obtain ⟨-, h⟩ := NativeCall.operands_scalar_cons h
    obtain ⟨hnear, h⟩ := NativeCall.operands_scalar_cons h
    obtain ⟨hfar, -⟩ := NativeCall.operands_scalar_cons h
    subst hnear hfar
    exact unlessRefused_spec _ _
  | mat4PerspectiveOffCenter =>
    obtain ⟨left, right, bottom, top, near, far, _⟩ := os
    obtain ⟨-, h⟩ := NativeCall.operands_scalar_cons h
    obtain ⟨-, h⟩ := NativeCall.operands_scalar_cons h
    obtain ⟨-, h⟩ := NativeCall.operands_scalar_cons h
    obtain ⟨-, h⟩ := NativeCall.operands_scalar_cons h
    obtain ⟨hnear, h⟩ := NativeCall.operands_scalar_cons h
    obtain ⟨hfar, -⟩ := NativeCall.operands_scalar_cons h
    subst hnear hfar
    exact unlessRefused_spec _ _
  | mat4PerspectiveFov =>
    obtain ⟨angle, aspect, near, far, _⟩ := os
    obtain ⟨hangle, h⟩ := NativeCall.operands_scalar_cons h
    obtain ⟨-, h⟩ := NativeCall.operands_scalar_cons h
    obtain ⟨hnear, h⟩ := NativeCall.operands_scalar_cons h
    obtain ⟨hfar, -⟩ := NativeCall.operands_scalar_cons h
    subst hangle hnear hfar
    exact unlessRefused_spec _ _
  | mat4Mul =>
    obtain ⟨m, factor, _⟩ := os
    cases factor with
    | scalar s => exact ⟨nofun, fun _ => ⟨_, rfl⟩⟩
    | mat4 n => exact ⟨nofun, fun _ => ⟨_, rfl⟩⟩
  | mat4Invert =>
    obtain ⟨m, _⟩ := os
    refine ⟨nofun, fun _ => ?_⟩
    rw [compute]
    cases Mat4.inverse? m with
    | some n => exact ⟨_, rfl⟩
    | none => exact ⟨_, rfl⟩
  | _ => exact ⟨nofun, fun _ => ⟨_, rfl⟩⟩

end LibraryFunction

/-! ### What a function sees and what it changes -/

namespace NativeCall

variable {call call' : NativeCall} {w : World}

theorem operand_congr (hname : call.name = call'.name) {i : Nat}
    (hargument : call.argument i = call'.argument i) (p : Parameter) :
    call.operand w i p = call'.operand w i p := by
  have hscalar : call.scalarArgument i = call'.scalarArgument i := by
    simp only [scalarArgument, numberArgument, unexpected, badArgument, hname, hargument]
  have helements {α : Type} (ofList? : List Float32 → Option α) (message : String) :
      call.elementsArgument w ofList? message i = call'.elementsArgument w ofList? message i := by
    simp only [elementsArgument, tableArgument, unexpected, badArgument, hname, hargument]
  cases p with
  | scalar => exact hscalar
  | vec3 => exact helements _ _
  | vec4 => exact helements _ _
  | mat4 => exact helements _ _
  | factor => simp only [operand, mat4Argument, hargument, hscalar, helements]

theorem operands_congr (hname : call.name = call'.name) {ps : List Parameter} {start : Nat}
    (hargument : ∀ i, i < start + ps.length → call.argument i = call'.argument i) :
    call.operands w start ps = call'.operands w start ps := by
  induction ps generalizing start with
  | nil => rfl
  | cons p ps ih =>
    have hfirst : call.operand w start p = call'.operand w start p :=
      operand_congr hname (hargument start (by simp)) p
    have hrest : call.operands w (start + 1) ps = call'.operands w (start + 1) ps :=
      ih fun i hi => hargument i (by simp only [List.length_cons]; omega)
    simp only [operands, hfirst, hrest]

end NativeCall

/-- All that a world holds is in another one as it was. -/
structure World.IsKeptIn (w w' : World) : Prop where
  tables : w.tables.toList <+: w'.tables.toList
  globals : w'.globals = w.globals
  typeMetatable : w'.typeMetatable = w.typeMetatable
  nextIdentity : w'.nextIdentity = w.nextIdentity

theorem World.IsKeptIn.refl (w : World) : w.IsKeptIn w := ⟨List.prefix_refl _, rfl, rfl, rfl⟩

theorem World.isKeptIn_ofResult (w : World) (result : LibraryResult) :
    w.IsKeptIn (w.ofResult result).2 := by
  have hnumbers (elements : List Float32) : w.IsKeptIn (w.newNumbers elements).2 := by
    refine ⟨?_, rfl, rfl, rfl⟩
    simp [newNumbers, newTable]
  cases result with
  | scalar x => exact .refl w
  | nothing => exact .refl w
  | vec3 v => exact hnumbers _
  | vec4 v => exact hnumbers _
  | mat4 m => exact hnumbers _

namespace LibraryFunction

variable {f : LibraryFunction} {call : NativeCall} {w : World}

theorem run_of_firstUnfit {i : Nat} {p : Parameter} (h : call.FirstUnfit w f.signature i p) :
    f.run call w =
      (.error (.badArgument (i + 1) call.name (p.complaint (call.argument i))), w) := by
  obtain ⟨hp, hunfit, hbefore⟩ := h
  have hread : call.operands w 0 f.signature =
      .error (call.badArgument (0 + i) (p.complaint (call.argument (0 + i)))) := by
    apply NativeCall.operands_of_unfit 0 hp
    · rwa [Nat.zero_add]
    · intro j q hj hq
      rw [Nat.zero_add]
      exact hbefore j q hj hq
  rw [Nat.zero_add] at hread
  rw [run, hread]
  rfl

theorem run_of_allFit (h : call.AllFit w f.signature) :
    (∀ r, f.rangeError? call.number = some r →
      f.run call w = (.error (.badArgument (r.index + 1) call.name r.reason), w)) ∧
    (f.rangeError? call.number = none → ∃ v, (f.run call w).1 = .ok v) := by
  obtain ⟨os, hos⟩ := NativeCall.operands_of_fit 0 fun j p hp => by
    rw [Nat.zero_add]
    exact h j p hp
  obtain ⟨hrefused, hcomputed⟩ := compute_spec hos
  constructor
  · intro r hr
    simp only [run, hos, hrefused r hr]
    rfl
  · intro hnone
    obtain ⟨result, hresult⟩ := hcomputed hnone
    refine ⟨(w.ofResult result).1, ?_⟩
    simp only [run, hos, hresult]

theorem isKeptIn_run (f : LibraryFunction) (call : NativeCall) (w : World) :
    w.IsKeptIn (f.run call w).2 := by
  unfold run
  split
  · exact .refl w
  · split
    · exact .refl w
    · exact w.isKeptIn_ofResult _

theorem run_take (f : LibraryFunction) (call : NativeCall) (w : World) :
    f.run { call with args := call.args.take f.signature.length } w = f.run call w := by
  let taken : NativeCall := { call with args := call.args.take f.signature.length }
  have hread : taken.operands w 0 f.signature = call.operands w 0 f.signature := by
    apply NativeCall.operands_congr
    · rfl
    · intro i hi
      rw [Nat.zero_add] at hi
      simp only [taken, NativeCall.argument, List.getD_eq_getElem?_getD,
        List.getElem?_take_of_lt hi]
  show f.run taken w = f.run call w
  rw [run, hread]
  rfl

/-- **The arguments of the libraries are checked in order.** If an argument along the signature of a
function does not fit, the call fails with a complaint about the first one, whatever the others are.
If all fit, it fails only if a perspective is out of range, and has one value otherwise. Arguments
behind the signature are not looked at, and all that the world holds stays as it was; a call that
fails does not change it at all. -/
theorem arguments_are_checked (f : LibraryFunction) (call : NativeCall) (w : World) :
    (¬ call.AllFit w f.signature → ∃ i p, call.FirstUnfit w f.signature i p ∧
      f.run call w =
        (.error (.badArgument (i + 1) call.name (p.complaint (call.argument i))), w)) ∧
    (call.AllFit w f.signature →
      (∀ r, f.rangeError? call.number = some r →
        f.run call w = (.error (.badArgument (r.index + 1) call.name r.reason), w)) ∧
      (f.rangeError? call.number = none → ∃ v, (f.run call w).1 = .ok v)) ∧
    f.run { call with args := call.args.take f.signature.length } w = f.run call w ∧
    w.IsKeptIn (f.run call w).2 := by
  refine ⟨fun hunfit => ?_, run_of_allFit, f.run_take call w, f.isKeptIn_run call w⟩
  obtain ⟨i, p, hfirst⟩ := NativeCall.exists_firstUnfit hunfit
  exact ⟨i, p, hfirst, run_of_firstUnfit hfirst⟩

example : (mat4Mul.run ⟨"mat4.mul", [.nil, .bool true]⟩ .empty).1 =
    .error (.badArgument 1 "mat4.mul" "table expected, got nil") := rfl

end LibraryFunction

end RegisterMachine
