import RegisterMachine.Binary32
import RegisterMachine.Geometry.Matrix
import RegisterMachine.Native

/-!
# Arguments of the libraries

Every function of a library has a signature, a list of parameters. The arguments of a call are read
along it from left to right, so the first argument that does not fit is the one that the error
names; arguments behind the signature are not looked at. Vectors and matrices are tables whose
array part has just their elements, and which may have anything else besides.
-/

namespace RegisterMachine

inductive Parameter where
  | scalar
  | vec3
  | vec4
  | mat4
  /-- a matrix if it is a table, and a number otherwise -/
  | factor
  deriving DecidableEq, Repr, Inhabited

inductive Factor where
  | scalar (x : Float32)
  | mat4 (m : Mat4)
  deriving Inhabited

namespace Parameter

def Operand : Parameter → Type
  | scalar => Float32
  | vec3 => Vec3
  | vec4 => Vec4
  | mat4 => Mat4
  | factor => Factor

end Parameter

def Operands : List Parameter → Type
  | [] => Unit
  | p :: ps => p.Operand × Operands ps

/-- The elements of an array of numbers in binary32; `none` if it holds anything else. -/
def elements? (values : List Value) : Option (List Float32) :=
  values.mapM fun v => v.asNumber?.map Binary32.narrow

namespace NativeCall

def scalarArgument (call : NativeCall) (index : Nat) : Except RuntimeError Float32 := do
  return Binary32.narrow (← call.numberArgument index)

/-- Reads an argument as a table of numbers, of which `ofList?` makes the operand. -/
def elementsArgument {α : Type} (call : NativeCall) (w : World) (ofList? : List Float32 → Option α)
    (message : String) (index : Nat) : Except RuntimeError α := do
  let id ← call.tableArgument index
  match (elements? (w.table id).array.toList).bind ofList? with
  | some a => return a
  | none => .error (call.badArgument index message)

def vec3Argument (call : NativeCall) (w : World) (index : Nat) : Except RuntimeError Vec3 :=
  call.elementsArgument w Vec3.ofList? "Invalid vec3. Three numeric elements required" index

def vec4Argument (call : NativeCall) (w : World) (index : Nat) : Except RuntimeError Vec4 :=
  call.elementsArgument w Vec4.ofList? "Invalid vec4. Four numeric elements required" index

def mat4Argument (call : NativeCall) (w : World) (index : Nat) : Except RuntimeError Mat4 :=
  call.elementsArgument w Mat4.ofList? "Invalid mat4x4. 16 numeric elements required" index

def operand (call : NativeCall) (w : World) (index : Nat) :
    (p : Parameter) → Except RuntimeError p.Operand
  | .scalar => call.scalarArgument index
  | .vec3 => call.vec3Argument w index
  | .vec4 => call.vec4Argument w index
  | .mat4 => call.mat4Argument w index
  | .factor =>
    match (call.argument index).asTable? with
    | some _ => (call.mat4Argument w index).map Factor.mat4
    | none => (call.scalarArgument index).map Factor.scalar

def operands (call : NativeCall) (w : World) (index : Nat) :
    (ps : List Parameter) → Except RuntimeError (Operands ps)
  | [] => .ok ()
  | p :: ps =>
    match call.operand w index p with
    | .error e => .error e
    | .ok o => (call.operands w (index + 1) ps).map fun os => (o, os)

end NativeCall

namespace LibraryFunction

def signature : LibraryFunction → List Parameter
  | vec3Add | vec3Sub | vec3Dot | vec3Cross | vec3Distance => [.vec3, .vec3]
  | vec3Mag | vec3Mag2 | vec3Normalize => [.vec3]
  | vec3Scale => [.vec3, .scalar]
  | vec3Lerp => [.vec3, .vec3, .scalar]
  | vec4Add | vec4Sub | vec4Dot => [.vec4, .vec4]
  | vec4Mag | vec4Mag2 | vec4Normalize => [.vec4]
  | vec4Scale => [.vec4, .scalar]
  | vec4Lerp => [.vec4, .vec4, .scalar]
  | mat4Identity => []
  | mat4Add | mat4Sub => [.mat4, .mat4]
  | mat4Mul => [.mat4, .factor]
  | mat4Transpose | mat4Invert => [.mat4]
  | mat4Orthographic | mat4Perspective | mat4PerspectiveFov =>
    [.scalar, .scalar, .scalar, .scalar]
  | mat4OrthoOffCenter | mat4PerspectiveOffCenter =>
    [.scalar, .scalar, .scalar, .scalar, .scalar, .scalar]
  | mat4Reflection => [.vec4]
  | mat4Shadow => [.vec3, .vec4]
  | mat4WorldMatrix | mat4LookAt => [.vec3, .vec3, .vec3]
  | mat4Billboard => [.vec3, .vec3, .vec3, .vec3, .vec3]
  | mat4Displacement | mat4Scale | mat4YawPitchRoll => [.scalar, .scalar, .scalar]
  | mat4RotX | mat4RotY | mat4RotZ => [.scalar]
  | mat4AxisAngle => [.vec3, .scalar]

end LibraryFunction

end RegisterMachine
