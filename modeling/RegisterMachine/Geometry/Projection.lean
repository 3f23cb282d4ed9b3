import RegisterMachine.Geometry.Matrix

/-!
# Projections

Projections onto a view whose depth goes from zero to one, and onto planes. A plane is given by
four numbers `a`, `b`, `c`, `d`; it is where `a x + b y + c z + d` is zero.
-/

namespace RegisterMachine

/-- What a camera sees: a window in the near plane, and the distances of the near and of the far
plane. -/
structure View where
  left : Float32
  right : Float32
  bottom : Float32
  top : Float32
  near : Float32
  far : Float32
  deriving Inhabited

namespace View

/-- The view whose window has its centre straight ahead, by half of its width and height. -/
def centred (right top near far : Float32) : View := ⟨-right, right, -top, top, near, far⟩

/-- The view whose window has its centre straight ahead, by its width and height. -/
def ofSize (width height near far : Float32) : View :=
  centred (width * 0.5) (height * 0.5) near far

/-- The view with an angle between top and bottom, in radians. -/
def ofAngle (angle aspect near far : Float32) : View :=
  let top := near * (angle * 0.5).tan
  centred (top * aspect) top near far

/-- Takes the view to a box without making distant things smaller. -/
def orthographic (v : View) : Mat4 :=
  let depth := 1 / (v.near - v.far)
  ⟨⟨2 / (v.right - v.left), 0, 0, 0⟩,
   ⟨0, 2 / (v.top - v.bottom), 0, 0⟩,
   ⟨0, 0, depth, 0⟩,
   ⟨(v.left + v.right) / (v.left - v.right), (v.top + v.bottom) / (v.bottom - v.top),
    v.near * depth, 1⟩⟩

/-- Takes the view to a box so that distant things get smaller. -/
def perspective (v : View) : Mat4 :=
  let depth := v.far / (v.near - v.far)
  ⟨⟨2 * v.near / (v.right - v.left), 0, 0, 0⟩,
   ⟨0, 2 * v.near / (v.top - v.bottom), 0, 0⟩,
   ⟨(v.left + v.right) / (v.right - v.left), (v.top + v.bottom) / (v.top - v.bottom), depth, -1⟩,
   ⟨0, 0, v.near * depth, 0⟩⟩

end View

namespace Vec4

/-- The same plane by numbers of which the first three make a vector of length one. -/
def normalizePlane (plane : Vec4) : Vec4 := plane / plane.xyz.norm

end Vec4

namespace Mat4

/-- Takes every point to its reflection in a plane. -/
def reflection (surface : Vec4) : Mat4 :=
  let plane := surface.normalizePlane
  let n := plane.xyz
  let f := n * (-2 : Float32)
  ⟨⟨f.x * n.x + 1, f.y * n.x, f.z * n.x, 0⟩,
   ⟨f.x * n.y, f.y * n.y + 1, f.z * n.y, 0⟩,
   ⟨f.x * n.z, f.y * n.z, f.z * n.z + 1, 0⟩,
   ⟨f.x * plane.w, f.y * plane.w, f.z * plane.w, 1⟩⟩

/-- Takes every point to its shadow on a plane. -/
def shadow (light : Vec3) (ground : Vec4) : Mat4 :=
  let plane := ground.normalizePlane
  let dot := plane.xyz.dot light
  let p := -plane
  ⟨⟨p.x * light.x + dot, p.x * light.y, p.x * light.z, 0⟩,
   ⟨p.y * light.x, p.y * light.y + dot, p.y * light.z, 0⟩,
   ⟨p.z * light.x, p.z * light.y, p.z * light.z + dot, 0⟩,
   ⟨p.w * light.x, p.w * light.y, p.w * light.z, dot⟩⟩

end Mat4

end RegisterMachine
