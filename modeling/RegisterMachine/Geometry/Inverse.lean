import RegisterMachine.Geometry.Matrix

/-!
# Determinants and inverses

There are two ways to the determinant, and with rounding they can differ. `determinant` eliminates
columns; a matrix for which it is zero or not finite counts as singular. The inverse is the matrix
of cofactors over the determinant that comes with them, which can be zero where the first is not.
-/

namespace RegisterMachine

/-- The place of the first of the largest elements by absolute value, and its absolute value. An
element that is not larger than the ones before it, such as one that is no number, is passed over,
but the first one counts in any case. -/
def largest (first : Float32) (rest : List Float32) : Nat :=
  let step := fun (best : Nat × Float32 × Nat) (e : Float32) =>
    if best.2.1 < e.abs then (best.2.2, e.abs, best.2.2 + 1) else (best.1, best.2.1, best.2.2 + 1)
  (rest.foldl step (0, first.abs, 1)).1

/-- The rows with the one at place `i` exchanged for the first. -/
def exchangeFirst {α : Type} (first : α) (rest : List α) (i : Nat) : α × List α :=
  match i with
  | 0 => (first, rest)
  | i + 1 =>
    match rest[i]? with
    | some row => (row, rest.set i first)
    | none => (first, rest)

/-- Eliminates the columns of `n` rows one after another, each by the row with the largest element.
Gives the elements on the diagonal, and whether the number of exchanges was odd. A column of zeros
is left as it is. -/
def eliminate (n : Nat) (rows : List (List Float32)) : List Float32 × Bool :=
  match n, rows with
  | n + 1, first :: rest =>
    let head := fun row : List Float32 => row.headD 0
    let i := largest (head first) (rest.map head)
    let (pivot, others) := exchangeFirst first rest i
    let below :=
      if head pivot == 0 then others.map List.tail
      else
        let inverse := 1 / head pivot
        others.map fun row =>
          List.zipWith (fun p e => -p * (head row * inverse) + e) pivot.tail row.tail
    let (diagonal, odd) := eliminate n below
    (head pivot :: diagonal, odd != (i != 0))
  | _, _ => ([], false)

namespace Mat4

/-- The determinant by elimination. The columns of the matrix are the rows that are exchanged. -/
def determinant (m : Mat4) : Float32 :=
  let (diagonal, odd) := eliminate 4 (m.transpose.rows.map Vec4.toList)
  diagonal.foldl (· * ·) 1 * (if odd then -1 else 1)

end Mat4

/-- The determinant of three rows. -/
def minor (a b c : Vec3) : Float32 :=
  a.x * b.y * c.z - a.x * b.z * c.y - b.x * a.y * c.z + b.x * a.z * c.y + c.x * a.y * b.z
    - c.x * a.z * b.y

namespace Mat4

def without (m : Mat4) : Fin 4 → Vec4 × Vec4 × Vec4
  | 0 => (m.row1, m.row2, m.row3)
  | 1 => (m.row0, m.row2, m.row3)
  | 2 => (m.row0, m.row1, m.row3)
  | 3 => (m.row0, m.row1, m.row2)

/-- The cofactor of the element in row `i` and column `j`. The sign is put on the first column, so
that a cofactor of zero is positive. -/
def cofactor (m : Mat4) (i j : Fin 4) : Float32 :=
  let (a, b, c) := m.without i
  let signed := fun v : Vec4 =>
    let v := v.without j
    if (i.val + j.val) % 2 = 0 then v else { v with x := -v.x }
  minor (signed a) (signed b) (signed c)

/-- The inverse by cofactors; `none` if the determinant that comes with them is zero. -/
def byCofactors? (m : Mat4) : Option Mat4 :=
  let column := fun j : Fin 4 =>
    (⟨m.cofactor 0 j, m.cofactor 1 j, m.cofactor 2 j, m.cofactor 3 j⟩ : Vec4)
  let adjugate : Mat4 := ⟨column 0, column 1, column 2, column 3⟩
  let determinant :=
    m.row0.x * adjugate.row0.x + m.row0.y * adjugate.row1.x + m.row0.z * adjugate.row2.x
      + m.row0.w * adjugate.row3.x
  if determinant == 0 then none else some (adjugate * (1 / determinant))

def inverse? (m : Mat4) : Option Mat4 :=
  let determinant := m.determinant
  if determinant == 0 || !determinant.isFinite then none else m.byCofactors?

end Mat4

end RegisterMachine
