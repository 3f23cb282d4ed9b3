/-!
# Vectors

Vectors with three and with four elements over binary32. Sums are rounded after every step, so the
order in which they are written matters: the product of two vectors with four elements adds the
elements at even and those at odd places first.
-/

namespace RegisterMachine

structure Vec3 where
  x : Float32
  y : Float32
  z : Float32
  deriving Inhabited

structure Vec4 where
  x : Float32
  y : Float32
  z : Float32
  w : Float32
  deriving Inhabited

/-- The point at `t` on the way from `a` to `b`. At the end of the way `a` does not matter, also if
it is no number. -/
def interpolate (t a b : Float32) : Float32 :=
  let rest := 1 - t
  if rest == 0 then t * b else t * b + rest * a

namespace Vec3

def map (f : Float32 → Float32) (v : Vec3) : Vec3 := ⟨f v.x, f v.y, f v.z⟩

def zipWith (f : Float32 → Float32 → Float32) (v w : Vec3) : Vec3 :=
  ⟨f v.x w.x, f v.y w.y, f v.z w.z⟩

def add (v w : Vec3) : Vec3 := zipWith (· + ·) v w

def sub (v w : Vec3) : Vec3 := zipWith (· - ·) v w

def scale (v : Vec3) (s : Float32) : Vec3 := v.map (· * s)

instance : Add Vec3 := ⟨add⟩
instance : Sub Vec3 := ⟨sub⟩
instance : Neg Vec3 := ⟨map (- ·)⟩
instance : HMul Vec3 Float32 Vec3 := ⟨scale⟩
instance : HDiv Vec3 Float32 Vec3 := ⟨fun v s => v.map (· / s)⟩

def zero : Vec3 := ⟨0, 0, 0⟩
def unitX : Vec3 := ⟨1, 0, 0⟩
def unitY : Vec3 := ⟨0, 1, 0⟩
def unitZ : Vec3 := ⟨0, 0, 1⟩

def dot (v w : Vec3) : Float32 := v.x * w.x + v.y * w.y + v.z * w.z

def cross (v w : Vec3) : Vec3 :=
  ⟨v.y * w.z - v.z * w.y, v.z * w.x - v.x * w.z, v.x * w.y - v.y * w.x⟩

def norm2 (v : Vec3) : Float32 := v.dot v

def norm (v : Vec3) : Float32 := v.norm2.sqrt

/-- The vector of length one in the same direction. That of the zero vector has no numbers. -/
def normalize (v : Vec3) : Vec3 := v / v.norm

def lerp (v w : Vec3) (t : Float32) : Vec3 := zipWith (interpolate t) v w

def extend (v : Vec3) (w : Float32) : Vec4 := ⟨v.x, v.y, v.z, w⟩

def toList (v : Vec3) : List Float32 := [v.x, v.y, v.z]

def ofList? : List Float32 → Option Vec3
  | [x, y, z] => some ⟨x, y, z⟩
  | _ => none

@[simp] theorem ofList?_toList (v : Vec3) : ofList? v.toList = some v := rfl

end Vec3

namespace Vec4

def map (f : Float32 → Float32) (v : Vec4) : Vec4 := ⟨f v.x, f v.y, f v.z, f v.w⟩

def zipWith (f : Float32 → Float32 → Float32) (v w : Vec4) : Vec4 :=
  ⟨f v.x w.x, f v.y w.y, f v.z w.z, f v.w w.w⟩

def add (v w : Vec4) : Vec4 := zipWith (· + ·) v w

def sub (v w : Vec4) : Vec4 := zipWith (· - ·) v w

def scale (v : Vec4) (s : Float32) : Vec4 := v.map (· * s)

instance : Add Vec4 := ⟨add⟩
instance : Sub Vec4 := ⟨sub⟩
instance : Neg Vec4 := ⟨map (- ·)⟩
instance : HMul Vec4 Float32 Vec4 := ⟨scale⟩
instance : HDiv Vec4 Float32 Vec4 := ⟨fun v s => v.map (· / s)⟩

def dot (v w : Vec4) : Float32 := (v.x * w.x + v.z * w.z) + (v.y * w.y + v.w * w.w)

def norm2 (v : Vec4) : Float32 := v.dot v

def norm (v : Vec4) : Float32 := v.norm2.sqrt

/-- The vector of length one in the same direction. That of the zero vector has no numbers. -/
def normalize (v : Vec4) : Vec4 := v / v.norm

def lerp (v w : Vec4) (t : Float32) : Vec4 := zipWith (interpolate t) v w

def xyz (v : Vec4) : Vec3 := ⟨v.x, v.y, v.z⟩

def toList (v : Vec4) : List Float32 := [v.x, v.y, v.z, v.w]

def ofList? : List Float32 → Option Vec4
  | [x, y, z, w] => some ⟨x, y, z, w⟩
  | _ => none

/-- The three elements that are left without the one at a place. -/
def without (v : Vec4) : Fin 4 → Vec3
  | 0 => ⟨v.y, v.z, v.w⟩
  | 1 => ⟨v.x, v.z, v.w⟩
  | 2 => ⟨v.x, v.y, v.w⟩
  | 3 => ⟨v.x, v.y, v.z⟩

@[simp] theorem ofList?_toList (v : Vec4) : ofList? v.toList = some v := rfl

end Vec4

end RegisterMachine
