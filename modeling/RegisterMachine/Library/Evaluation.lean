import RegisterMachine.Geometry.Inverse
import RegisterMachine.Geometry.Placement
import RegisterMachine.Geometry.Projection
import RegisterMachine.Library.Signature

/-!
# What the libraries compute

`compute` gives the result of every function for operands along its signature. A perspective
refuses a view that it cannot show; everything else always has a result. `run` puts the reading of
the arguments in front and turns the result into a value, a new table if it has several elements.
-/

namespace RegisterMachine

inductive LibraryResult where
  | scalar (x : Float32)
  | vec3 (v : Vec3)
  | vec4 (v : Vec4)
  | mat4 (m : Mat4)
  /-- there is no inverse -/
  | nothing
  deriving Inhabited

/-- A value out of range, with the index of the argument. -/
structure Refusal where
  index : Nat
  reason : String
  deriving DecidableEq, Repr, Inhabited

def Binary32.pi : Float32 := 3.14159274

/-- What is wrong with the distances of the near and the far plane, of which the near one is at
`index`. -/
def refusePlanes? (index : Nat) (near far : Float32) : Option Refusal :=
  if near ≤ 0 then some ⟨index, "near plane distance must be positive"⟩
  else if far ≤ 0 then some ⟨index + 1, "far plane distance must be positive"⟩
  else if far ≤ near then
    some ⟨index, "near plane distance must be less than far plane distance"⟩
  else none

def refuseAngle? (angle : Float32) : Option Refusal :=
  if angle ≤ 0 || Binary32.pi ≤ angle then
    some ⟨0, "field of view must be between 0 and pi"⟩
  else none

def unlessRefused (refusal : Option Refusal) (result : LibraryResult) :
    Except Refusal LibraryResult :=
  match refusal with
  | some r => .error r
  | none => .ok result

namespace LibraryFunction

def compute : (f : LibraryFunction) → Operands f.signature → Except Refusal LibraryResult
  | vec3Add, (a, b, _) => .ok (.vec3 (Vec3.add a b))
  | vec3Sub, (a, b, _) => .ok (.vec3 (Vec3.sub a b))
  | vec3Dot, (a, b, _) => .ok (.scalar (Vec3.dot a b))
  | vec3Cross, (a, b, _) => .ok (.vec3 (Vec3.cross a b))
  | vec3Mag, (v, _) => .ok (.scalar (Vec3.norm v))
  | vec3Mag2, (v, _) => .ok (.scalar (Vec3.norm2 v))
  | vec3Normalize, (v, _) => .ok (.vec3 (Vec3.normalize v))
  | vec3Scale, (v, s, _) => .ok (.vec3 (Vec3.scale v s))
  | vec3Lerp, (a, b, t, _) => .ok (.vec3 (Vec3.lerp a b t))
  | vec3Distance, (a, b, _) => .ok (.scalar (Vec3.norm (Vec3.sub a b)))
  | vec4Add, (a, b, _) => .ok (.vec4 (Vec4.add a b))
  | vec4Sub, (a, b, _) => .ok (.vec4 (Vec4.sub a b))
  | vec4Dot, (a, b, _) => .ok (.scalar (Vec4.dot a b))
  | vec4Mag, (v, _) => .ok (.scalar (Vec4.norm v))
  | vec4Mag2, (v, _) => .ok (.scalar (Vec4.norm2 v))
  | vec4Normalize, (v, _) => .ok (.vec4 (Vec4.normalize v))
  | vec4Scale, (v, s, _) => .ok (.vec4 (Vec4.scale v s))
  | vec4Lerp, (a, b, t, _) => .ok (.vec4 (Vec4.lerp a b t))
  | mat4Identity, _ => .ok (.mat4 .identity)
  | mat4Add, (m, n, _) => .ok (.mat4 (Mat4.add m n))
  | mat4Sub, (m, n, _) => .ok (.mat4 (Mat4.sub m n))
  | mat4Mul, (m, .scalar s, _) => .ok (.mat4 (Mat4.scale m s))
  | mat4Mul, (m, .mat4 n, _) => .ok (.mat4 (Mat4.mul m n))
  | mat4Transpose, (m, _) => .ok (.mat4 (Mat4.transpose m))
  | mat4Invert, (m, _) =>
    match Mat4.inverse? m with
    | some n => .ok (.mat4 n)
    | none => .ok .nothing
  | mat4Orthographic, (width, height, near, far, _) =>
    .ok (.mat4 (View.ofSize width height near far).orthographic)
  | mat4Perspective, (width, height, near, far, _) =>
    unlessRefused (refusePlanes? 2 near far) (.mat4 (View.ofSize width height near far).perspective)
  | mat4OrthoOffCenter, (left, right, bottom, top, near, far, _) =>
    .ok (.mat4 (View.mk left right bottom top near far).orthographic)
  | mat4PerspectiveOffCenter, (left, right, bottom, top, near, far, _) =>
    unlessRefused (refusePlanes? 4 near far)
      (.mat4 (View.mk left right bottom top near far).perspective)
  | mat4PerspectiveFov, (angle, aspect, near, far, _) =>
    unlessRefused (refuseAngle? angle <|> refusePlanes? 2 near far)
      (.mat4 (View.ofAngle angle aspect near far).perspective)
  | mat4Reflection, (plane, _) => .ok (.mat4 (.reflection plane))
  | mat4Shadow, (light, plane, _) => .ok (.mat4 (.shadow light plane))
  | mat4WorldMatrix, (position, forward, up, _) => .ok (.mat4 (.world position forward up))
  | mat4Billboard, (object, camera, axis, cameraForward, objectForward, _) =>
    .ok (.mat4 (.billboard object camera axis cameraForward objectForward))
  | mat4LookAt, (eye, target, up, _) => .ok (.mat4 (.lookAt eye target up))
  | mat4Displacement, (x, y, z, _) => .ok (.mat4 (.displacement ⟨x, y, z⟩))
  | mat4Scale, (x, y, z, _) => .ok (.mat4 (.scaling ⟨x, y, z⟩))
  | mat4RotX, (angle, _) => .ok (.mat4 (.rotation .unitX angle))
  | mat4RotY, (angle, _) => .ok (.mat4 (.rotation .unitY angle))
  | mat4RotZ, (angle, _) => .ok (.mat4 (.rotation .unitZ angle))
  | mat4AxisAngle, (axis, angle, _) => .ok (.mat4 (.rotation axis angle))
  | mat4YawPitchRoll, (yaw, pitch, roll, _) => .ok (.mat4 (.yawPitchRoll yaw pitch roll))

end LibraryFunction

namespace World

def newNumbers (w : World) (elements : List Float32) : Value × World :=
  let (w, id) :=
    w.newTable (.ofArray (elements.map fun x => Value.number (Binary32.widen x)).toArray)
  (.table id, w)

def ofResult (w : World) : LibraryResult → Value × World
  | .scalar x => (.number (Binary32.widen x), w)
  | .vec3 v => w.newNumbers v.toList
  | .vec4 v => w.newNumbers v.toList
  | .mat4 m => w.newNumbers m.toList
  | .nothing => (.nil, w)

end World

namespace LibraryFunction

def run (f : LibraryFunction) : NativeBehaviour := fun call w =>
  match call.operands w 0 f.signature with
  | .error e => (.error e, w)
  | .ok operands =>
    match f.compute operands with
    | .error refusal => (.error (call.badArgument refusal.index refusal.reason), w)
    | .ok result =>
      let (value, w) := w.ofResult result
      (.ok value, w)

end LibraryFunction

/-- The host that knows the libraries, and for its own functions the behaviours of `functions`. -/
def Host.withLibraries (functions : String → NativeBehaviour) : Host
  | .library f => f.run
  | .host name => functions name

end RegisterMachine
