import RegisterMachine.Geometry.Matrix

/-!
# Placing objects and cameras

Matrices that put an object into the world, and the one that moves the world in front of a camera.
The third axis points backwards, from what is looked at to who looks.
-/

namespace RegisterMachine

namespace Mat4

def world (position forward up : Vec3) : Mat4 :=
  let z := (-forward).normalize
  let x := (up.cross z).normalize
  ofBasis x (z.cross x) z position

/-- Moves the world so that a camera at `eye` that looks at `target` is at the origin. The axes of
the camera are the columns. -/
def lookAt (eye target up : Vec3) : Mat4 :=
  let z := (-(target - eye)).normalize
  let x := (up.cross z).normalize
  let y := z.cross x
  let row0 : Vec3 := ⟨x.x, y.x, z.x⟩
  let row1 : Vec3 := ⟨x.y, y.y, z.y⟩
  let row2 : Vec3 := ⟨x.z, y.z, z.z⟩
  let offset := -eye
  ofBasis row0 row1 row2 (row2 * offset.z + (row1 * offset.y + row0 * offset.x))

/-- The square of the distance under which the camera counts as being at the object. -/
def nearCamera : Float32 := 1e-4

/-- The cosine above which two directions count as parallel, that of about a tenth of a degree. -/
def parallelCosine : Float32 := 1 - 0.1 * (3.14159274 / 180)

/-- The two directions are parallel. A product that is no number does not show that they are
not. -/
def areParallel (v w : Vec3) : Bool := !decide ((v.dot w).abs ≤ parallelCosine)

/-- Puts an object at a position so that it turns around an axis towards the camera. If the camera
is on the axis, the object looks forward, or in a fixed direction if that is along the axis too. -/
def billboard (object camera axis cameraForward objectForward : Vec3) : Mat4 :=
  let toObject := object - camera
  let distance2 := toObject.norm2
  let face := if distance2 < nearCamera then -cameraForward else toObject / distance2.sqrt
  let facing :=
    if !areParallel axis face then face
    else if !areParallel axis objectForward then objectForward
    else if parallelCosine < axis.z.abs then .unitX
    else -.unitZ
  let x := (axis.cross facing).normalize
  let z := (x.cross axis).normalize
  ofBasis x axis z object

end Mat4

end RegisterMachine
