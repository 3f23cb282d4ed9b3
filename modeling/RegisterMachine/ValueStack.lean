import RegisterMachine.Value

/-!
# The register stack

The registers of all frames lie on one stack. Reading is total: slots beyond the end read as nil.
Writing beyond the end grows the stack, with nil in between. The view of a stack is the function
`get` together with the length.
-/

namespace RegisterMachine

structure ValueStack where
  slots : Array Value
  deriving Inhabited

namespace ValueStack

def empty : ValueStack := ⟨#[]⟩

def size (s : ValueStack) : Nat := s.slots.size

/-- The largest number of slots that a stack can have: a slot takes 24 bytes, and the bytes of a
stack are counted in a signed word of 64 bits. -/
def maxSize : Nat := (UInt64.size / 2 - 1) / 24

/-- The value in a slot; nil beyond the end. -/
def get (s : ValueStack) (index : Nat) : Value := s.slots.getD index .nil

/-- Grows to a length with nil, and never shrinks. -/
def ensureSize (s : ValueStack) (size : Nat) : ValueStack :=
  ⟨s.slots ++ Array.replicate (size - s.slots.size) .nil⟩

/-- Writes a slot. The stack grows to hold it. -/
def set (s : ValueStack) (index : Nat) (value : Value) : ValueStack :=
  ⟨(s.ensureSize (index + 1)).slots.setIfInBounds index value⟩

/-- Cuts the stack off at a length, and never grows it. -/
def truncate (s : ValueStack) (size : Nat) : ValueStack := ⟨s.slots.shrink size⟩

def push (s : ValueStack) (value : Value) : ValueStack := ⟨s.slots.push value⟩

def setAll (s : ValueStack) (start : Nat) : List Value → ValueStack
  | [] => s
  | v :: vs => (s.set start v).setAll (start + 1) vs

def slice (s : ValueStack) (start count : Nat) : List Value :=
  (List.range count).map fun i => s.get (start + i)

@[simp] theorem get_empty (i : Nat) : empty.get i = .nil := by simp [empty, get]

theorem get_of_size_le {s : ValueStack} {i : Nat} (h : s.size ≤ i) : s.get i = .nil := by
  unfold size at h
  simp [get, Array.getD_eq_getD_getElem?, Array.getElem?_eq_none h]

@[simp] theorem size_ensureSize (s : ValueStack) (n : Nat) :
    (s.ensureSize n).size = max s.size n := by
  simp only [ensureSize, size, Array.size_append, Array.size_replicate]
  omega

@[simp] theorem get_ensureSize (s : ValueStack) (n i : Nat) : (s.ensureSize n).get i = s.get i := by
  by_cases h : i < s.slots.size
  · simp [ensureSize, get, Array.getD_eq_getD_getElem?, Array.getElem?_append, h]
  · simp [ensureSize, get, Array.getD_eq_getD_getElem?, Array.getElem?_append, h,
      Array.getElem?_replicate]
    split <;> simp

@[simp] theorem size_set (s : ValueStack) (i : Nat) (v : Value) :
    (s.set i v).size = max s.size (i + 1) := by
  have := size_ensureSize s (i + 1)
  simpa [set, size] using this

theorem get_set (s : ValueStack) (i j : Nat) (v : Value) :
    (s.set i v).get j = if i = j then v else s.get j := by
  by_cases h : i = j
  · subst h
    have h : i < (s.ensureSize (i + 1)).slots.size := by
      have := size_ensureSize s (i + 1)
      rw [size] at this
      omega
    rw [if_pos rfl, set, get, Array.getD_eq_getD_getElem?,
      Array.getElem?_setIfInBounds_self_of_lt h]
    rfl
  · have := get_ensureSize s (i + 1) j
    simp only [get, Array.getD_eq_getD_getElem?] at this
    simp [set, get, Array.getD_eq_getD_getElem?, Array.getElem?_setIfInBounds_ne, h, this]

@[simp] theorem size_truncate (s : ValueStack) (n : Nat) :
    (s.truncate n).size = min s.size n := by
  simp [truncate, size, Nat.min_comm]

theorem get_truncate (s : ValueStack) (n i : Nat) :
    (s.truncate n).get i = if i < n then s.get i else .nil := by
  simp only [truncate, get, Array.getD_eq_getD_getElem?, Array.shrink_eq_take,
    Array.getElem?_extract]
  by_cases h : i < n
  · by_cases hs : i < s.slots.size
    · have : i < min n s.slots.size := by omega
      simp [h, hs, this]
    · simp [h, hs]
  · have : ¬ i < min n s.slots.size := by omega
    simp [h, this]

@[simp] theorem size_push (s : ValueStack) (v : Value) : (s.push v).size = s.size + 1 := by
  simp [push, size]

theorem get_push (s : ValueStack) (v : Value) (i : Nat) :
    (s.push v).get i = if i = s.size then v else s.get i := by
  by_cases h : i = s.slots.size
  · subst h
    simp [push, get, size, Array.getD_eq_getD_getElem?]
  · simp [push, get, size, Array.getD_eq_getD_getElem?, Array.getElem?_push, h]

@[simp] theorem size_foldl_push (s : ValueStack) (vs : List Value) :
    (vs.foldl push s).size = s.size + vs.length := by
  induction vs generalizing s with
  | nil => rfl
  | cons v vs ih =>
    rw [List.foldl_cons, ih, size_push, List.length_cons]
    omega

theorem get_foldl_push_of_lt (s : ValueStack) (vs : List Value) {i : Nat} (h : i < s.size) :
    (vs.foldl push s).get i = s.get i := by
  induction vs generalizing s with
  | nil => rfl
  | cons v vs ih =>
    have hlt : i < (s.push v).size := by
      rw [size_push]
      omega
    rw [List.foldl_cons, ih _ hlt, get_push, if_neg (Nat.ne_of_lt h)]

@[simp] theorem length_slice (s : ValueStack) (start count : Nat) :
    (s.slice start count).length = count := by
  simp [slice]

@[simp] theorem setAll_nil (s : ValueStack) (start : Nat) : s.setAll start [] = s := rfl

theorem get_setAll_of_lt (s : ValueStack) {start i : Nat} (vs : List Value) (h : i < start) :
    (s.setAll start vs).get i = s.get i := by
  induction vs generalizing s start with
  | nil => rfl
  | cons v vs ih =>
    rw [setAll, ih (s.set start v) (by omega), get_set, if_neg (by omega)]

theorem get_setAll_of_le (s : ValueStack) {start i : Nat} (vs : List Value)
    (h : start + vs.length ≤ i) : (s.setAll start vs).get i = s.get i := by
  induction vs generalizing s start with
  | nil => rfl
  | cons v vs ih =>
    rw [List.length_cons] at h
    rw [setAll, ih (s.set start v) (by omega), get_set, if_neg (by omega)]

theorem get_setAll_add (s : ValueStack) (start : Nat) (vs : List Value) {i : Nat}
    (h : i < vs.length) : (s.setAll start vs).get (start + i) = vs[i] := by
  induction vs generalizing s start i with
  | nil => simp at h
  | cons v vs ih =>
    rw [setAll]
    cases i with
    | zero =>
      rw [get_setAll_of_lt _ _ (by omega), get_set, if_pos (Nat.add_zero start).symm]
      rfl
    | succ i =>
      rw [← Nat.add_assoc, Nat.add_right_comm, ih _ _ (Nat.lt_of_succ_lt_succ h)]
      rfl

theorem le_size_setAll (s : ValueStack) (start : Nat) (vs : List Value) :
    s.size ≤ (s.setAll start vs).size := by
  induction vs generalizing s start with
  | nil => exact Nat.le_refl _
  | cons v vs ih =>
    have hset : s.size ≤ (s.set start v).size := by
      rw [size_set]
      exact Nat.le_max_left _ _
    exact Nat.le_trans hset (ih (s.set start v) (start + 1))

/-- A stack is its length and what it holds below it. -/
theorem ext_get {s t : ValueStack} (hsize : s.size = t.size)
    (h : ∀ i < s.size, s.get i = t.get i) : s = t := by
  obtain ⟨xs⟩ := s
  obtain ⟨ys⟩ := t
  refine congrArg mk (Array.ext hsize fun i hi hi' => ?_)
  have hget := h i hi
  simpa [get, Array.getD_eq_getD_getElem?, hi, hi'] using hget

/-- Cutting a stack off leaves another one, if it holds the same up to there. -/
theorem truncate_eq {s t : ValueStack} (hsize : t.size ≤ s.size)
    (h : ∀ i < t.size, s.get i = t.get i) : s.truncate t.size = t := by
  have hcut : (s.truncate t.size).size = t.size := by
    rw [size_truncate]
    exact Nat.min_eq_right hsize
  refine ext_get hcut fun i hi => ?_
  rw [hcut] at hi
  rw [get_truncate, if_pos hi]
  exact h i hi

theorem getElem_slice (s : ValueStack) (start count : Nat) {i : Nat}
    (h : i < (s.slice start count).length) : (s.slice start count)[i] = s.get (start + i) := by
  simp [slice]

theorem mem_slice {s : ValueStack} {start count : Nat} {v : Value} :
    v ∈ s.slice start count ↔ ∃ i < count, s.get (start + i) = v := by
  simp [slice]

/-- Two slices are equal if and only if they hold the same values one by one. -/
theorem slice_eq_slice_iff {s t : ValueStack} {start start' count : Nat} :
    s.slice start count = t.slice start' count ↔
      ∀ i < count, s.get (start + i) = t.get (start' + i) := by
  simp [slice]

theorem slice_succ (s : ValueStack) (start count : Nat) :
    s.slice start (count + 1) = s.get start :: s.slice (start + 1) count := by
  simp [slice, List.range_succ_eq_map, Nat.add_assoc, Nat.add_comm 1]

theorem slice_eq_iff {s : ValueStack} {start : Nat} {vs : List Value} :
    s.slice start vs.length = vs ↔
      ∀ i (h : i < vs.length), s.get (start + i) = vs[i] := by
  constructor
  · intro h i hi
    rw [← getElem_slice s start vs.length (by simpa using hi)]
    simp only [h]
  · intro h
    refine List.ext_getElem (by simp) fun i _ hi => ?_
    rw [getElem_slice, h i hi]

@[simp] theorem slice_setAll (s : ValueStack) (start : Nat) (vs : List Value) :
    (s.setAll start vs).slice start vs.length = vs :=
  slice_eq_iff.2 fun _ hi => get_setAll_add s start vs hi

/-- What has just been pushed lies on top, the last value highest. -/
theorem slice_foldl_push (s : ValueStack) (vs : List Value) :
    (vs.foldl push s).slice s.size vs.length = vs := by
  induction vs generalizing s with
  | nil => rfl
  | cons v vs ih =>
    have htop : s.size < (s.push v).size := by
      rw [size_push]
      exact Nat.lt_succ_self _
    rw [List.length_cons, slice_succ, List.foldl_cons, get_foldl_push_of_lt _ _ htop, get_push,
      if_pos rfl]
    have := ih (s.push v)
    rw [size_push] at this
    rw [this]

theorem take_slice (s : ValueStack) (start count n : Nat) :
    (s.slice start count).take n = s.slice start (min n count) := by
  simp [slice, ← List.map_take, List.take_range]

end ValueStack

end RegisterMachine
