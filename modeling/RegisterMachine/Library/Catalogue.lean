/-!
# The numeric libraries

Three libraries of native functions on tables of numbers: `vec3` for vectors with three elements,
`vec4` for vectors with four, and `mat4` for matrices of four rows with sixteen. This module only
names the functions; what they compute is in the other modules of the folder.
-/

namespace RegisterMachine

/-- A library; its name is the global that holds its functions. -/
inductive Library where
  | vec3
  | vec4
  | mat4
  deriving DecidableEq, Repr, Inhabited

namespace Library

def all : List Library := [vec3, vec4, mat4]

def name : Library → String
  | vec3 => "vec3"
  | vec4 => "vec4"
  | mat4 => "mat4"

end Library

inductive LibraryFunction where
  | vec3Add
  | vec3Sub
  | vec3Dot
  | vec3Cross
  | vec3Mag
  | vec3Mag2
  | vec3Normalize
  | vec3Scale
  | vec3Lerp
  | vec3Distance
  | vec4Add
  | vec4Sub
  | vec4Dot
  | vec4Mag
  | vec4Mag2
  | vec4Normalize
  | vec4Scale
  | vec4Lerp
  | mat4Identity
  | mat4Add
  | mat4Sub
  | mat4Mul
  | mat4Transpose
  | mat4Invert
  | mat4Orthographic
  | mat4Perspective
  | mat4OrthoOffCenter
  | mat4PerspectiveOffCenter
  | mat4PerspectiveFov
  | mat4Reflection
  | mat4Shadow
  | mat4WorldMatrix
  | mat4Billboard
  | mat4LookAt
  | mat4Displacement
  | mat4Scale
  | mat4RotX
  | mat4RotY
  | mat4RotZ
  | mat4AxisAngle
  | mat4YawPitchRoll
  deriving DecidableEq, Repr, Inhabited

namespace LibraryFunction

def library : LibraryFunction → Library
  | vec3Add | vec3Sub | vec3Dot | vec3Cross | vec3Mag | vec3Mag2 | vec3Normalize | vec3Scale
  | vec3Lerp | vec3Distance => .vec3
  | vec4Add | vec4Sub | vec4Dot | vec4Mag | vec4Mag2 | vec4Normalize | vec4Scale | vec4Lerp =>
    .vec4
  | mat4Identity | mat4Add | mat4Sub | mat4Mul | mat4Transpose | mat4Invert | mat4Orthographic
  | mat4Perspective | mat4OrthoOffCenter | mat4PerspectiveOffCenter | mat4PerspectiveFov
  | mat4Reflection | mat4Shadow | mat4WorldMatrix | mat4Billboard | mat4LookAt | mat4Displacement
  | mat4Scale | mat4RotX | mat4RotY | mat4RotZ | mat4AxisAngle | mat4YawPitchRoll => .mat4

def shortName : LibraryFunction → String
  | vec3Add | vec4Add | mat4Add => "add"
  | vec3Sub | vec4Sub | mat4Sub => "sub"
  | vec3Dot | vec4Dot => "dot"
  | vec3Cross => "cross"
  | vec3Mag | vec4Mag => "mag"
  | vec3Mag2 | vec4Mag2 => "mag2"
  | vec3Normalize | vec4Normalize => "normalize"
  | vec3Scale | vec4Scale => "scale"
  | vec3Lerp | vec4Lerp => "lerp"
  | vec3Distance => "distance"
  | mat4Identity => "identity"
  | mat4Mul => "mul"
  | mat4Transpose => "transpose"
  | mat4Invert => "invert"
  | mat4Orthographic => "make_orthographic"
  | mat4Perspective => "make_perspective"
  | mat4OrthoOffCenter => "make_ortho_off_center"
  | mat4PerspectiveOffCenter => "make_perspective_off_center"
  | mat4PerspectiveFov => "make_perspective_fov"
  | mat4Reflection => "make_reflection"
  | mat4Shadow => "make_shadow"
  | mat4WorldMatrix => "make_world_matrix"
  | mat4Billboard => "make_billboard"
  | mat4LookAt => "make_look_at"
  | mat4Displacement => "make_translation"
  | mat4Scale => "make_scale"
  | mat4RotX => "make_rot_x"
  | mat4RotY => "make_rot_y"
  | mat4RotZ => "make_rot_z"
  | mat4AxisAngle => "from_axis_angle"
  | mat4YawPitchRoll => "from_yaw_pitch_roll"

def all : List LibraryFunction :=
  [vec3Add, vec3Sub, vec3Dot, vec3Cross, vec3Mag, vec3Mag2, vec3Normalize, vec3Scale, vec3Lerp,
   vec3Distance, vec4Add, vec4Sub, vec4Dot, vec4Mag, vec4Mag2, vec4Normalize, vec4Scale, vec4Lerp,
   mat4Identity, mat4Add, mat4Sub, mat4Mul, mat4Transpose, mat4Invert, mat4Orthographic,
   mat4Perspective, mat4OrthoOffCenter, mat4PerspectiveOffCenter, mat4PerspectiveFov,
   mat4Reflection, mat4Shadow, mat4WorldMatrix, mat4Billboard, mat4LookAt, mat4Displacement,
   mat4Scale, mat4RotX, mat4RotY, mat4RotZ, mat4AxisAngle, mat4YawPitchRoll]

def qualifiedName (f : LibraryFunction) : String := f.library.name ++ "." ++ f.shortName

def ofLibrary (library : Library) : List LibraryFunction :=
  all.filter fun f => f.library == library

end LibraryFunction

end RegisterMachine
