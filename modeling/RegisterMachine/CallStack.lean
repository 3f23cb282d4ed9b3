import RegisterMachine.Frame

/-!
# The call stack

The frames of the active calls, the running one on top. How many there are is asked at every call
and every return, so a stack carries its depth with it.
-/

namespace RegisterMachine

inductive CallStack where
  | empty
  | push (frame : Frame) (below : CallStack)
with
  @[computed_field] depth : CallStack → Nat
    | .empty => 0
    | .push _ below => below.depth + 1

namespace CallStack

instance : Inhabited CallStack := ⟨empty⟩

@[simp] theorem depth_empty : empty.depth = 0 := rfl

@[simp] theorem depth_push (frame : Frame) (below : CallStack) :
    (push frame below).depth = below.depth + 1 := rfl

def toList : CallStack → List Frame
  | empty => []
  | push frame below => frame :: below.toList

@[simp] theorem length_toList (s : CallStack) : s.toList.length = s.depth := by
  induction s with
  | empty => rfl
  | push frame below ih => simp [toList, ih]

def isEmpty : CallStack → Bool
  | empty => true
  | push _ _ => false

def pop : CallStack → CallStack
  | empty => empty
  | push _ below => below

@[simp] theorem pop_push (frame : Frame) (below : CallStack) : (push frame below).pop = below := rfl

def cut (depth : Nat) : CallStack → CallStack
  | empty => empty
  | push frame below => if below.depth < depth then push frame below else below.cut depth

@[simp] theorem depth_cut (depth : Nat) (s : CallStack) :
    (s.cut depth).depth = min depth s.depth := by
  induction s with
  | empty => simp [cut]
  | push frame below ih =>
    rw [cut]
    split
    · simp only [depth_push]
      omega
    · rw [ih, depth_push]
      omega

theorem cut_of_depth_le {depth : Nat} {s : CallStack} (h : s.depth ≤ depth) :
    s.cut depth = s := by
  cases s with
  | empty => rfl
  | push frame below => simp [cut, Nat.lt_of_succ_le h]

end CallStack

end RegisterMachine
