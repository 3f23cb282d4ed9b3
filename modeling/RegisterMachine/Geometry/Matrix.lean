import RegisterMachine.Geometry.Vector

/-!
# Matrices

A matrix has four rows with four elements each. It transforms a point, written as a row with a
fourth element one, by a product from the right: the rows are what the axes and the origin are
taken to, and `a.mul b` transforms by `a` first.
-/

namespace RegisterMachine

structure Mat4 where
  row0 : Vec4
  row1 : Vec4
  row2 : Vec4
  row3 : Vec4
  deriving Inhabited

/-- The product of a row and a matrix. The first row of the matrix is taken first. -/
def Vec4.transform (v : Vec4) (m : Mat4) : Vec4 :=
  m.row3 * v.w + (m.row2 * v.z + (m.row1 * v.y + m.row0 * v.x))

namespace Mat4

def map (f : Vec4 → Vec4) (m : Mat4) : Mat4 := ⟨f m.row0, f m.row1, f m.row2, f m.row3⟩

def zipWith (f : Vec4 → Vec4 → Vec4) (m n : Mat4) : Mat4 :=
  ⟨f m.row0 n.row0, f m.row1 n.row1, f m.row2 n.row2, f m.row3 n.row3⟩

def add (m n : Mat4) : Mat4 := zipWith (· + ·) m n

def sub (m n : Mat4) : Mat4 := zipWith (· - ·) m n

def scale (m : Mat4) (s : Float32) : Mat4 := m.map (· * s)

instance : Add Mat4 := ⟨add⟩
instance : Sub Mat4 := ⟨sub⟩
instance : HMul Mat4 Float32 Mat4 := ⟨scale⟩

def mul (m n : Mat4) : Mat4 := m.map (·.transform n)

def transpose (m : Mat4) : Mat4 :=
  ⟨⟨m.row0.x, m.row1.x, m.row2.x, m.row3.x⟩, ⟨m.row0.y, m.row1.y, m.row2.y, m.row3.y⟩,
   ⟨m.row0.z, m.row1.z, m.row2.z, m.row3.z⟩, ⟨m.row0.w, m.row1.w, m.row2.w, m.row3.w⟩⟩

/-- The matrix that takes the axes to the directions `x`, `y` and `z`, and the origin to a point. -/
def ofBasis (x y z origin : Vec3) : Mat4 :=
  ⟨x.extend 0, y.extend 0, z.extend 0, origin.extend 1⟩

def identity : Mat4 := ofBasis .unitX .unitY .unitZ .zero

def displacement (offset : Vec3) : Mat4 := ofBasis .unitX .unitY .unitZ offset

def scaling (s : Vec3) : Mat4 := ofBasis ⟨s.x, 0, 0⟩ ⟨0, s.y, 0⟩ ⟨0, 0, s.z⟩ .zero

/-- Turns around an axis of length one by an angle in radians. -/
def rotation (axis : Vec3) (angle : Float32) : Mat4 :=
  if angle == 0 then identity
  else
    let ⟨x, y, z⟩ := axis
    let s := angle.sin
    let c := angle.cos
    let k := 1 - c
    let diagonal := fun e : Float32 => e * e + (1 - e * e) * c
    ofBasis
      ⟨diagonal x, x * y * k + z * s, x * z * k - y * s⟩
      ⟨x * y * k - z * s, diagonal y, y * z * k + x * s⟩
      ⟨x * z * k + y * s, y * z * k - x * s, diagonal z⟩
      .zero

/-- Turns around the third axis, then around the first, then around the second. -/
def yawPitchRoll (yaw pitch roll : Float32) : Mat4 :=
  (rotation .unitZ roll).mul ((rotation .unitX pitch).mul (rotation .unitY yaw))

def rows (m : Mat4) : List Vec4 := [m.row0, m.row1, m.row2, m.row3]

def toList (m : Mat4) : List Float32 := m.rows.flatMap Vec4.toList

def ofList? : List Float32 → Option Mat4
  | [m0, m1, m2, m3, m4, m5, m6, m7, m8, m9, m10, m11, m12, m13, m14, m15] =>
    some ⟨⟨m0, m1, m2, m3⟩, ⟨m4, m5, m6, m7⟩, ⟨m8, m9, m10, m11⟩, ⟨m12, m13, m14, m15⟩⟩
  | _ => none

@[simp] theorem ofList?_toList (m : Mat4) : ofList? m.toList = some m := rfl

end Mat4

end RegisterMachine
