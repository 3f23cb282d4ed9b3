import RegisterMachine.ValueStack

/-!
# The history of a register

A stack of registers is an array that goes on with nil for ever. What slot `i` reads is decided by
the last change that touched it: the value, if it was written then; nil, if it was cut off then,
even if the stack has grown over it since; nil also if no change has ever touched it. Slots and
sizes are natural numbers, so a stack never runs out of memory.

Which slot a push writes depends on the size of the stack at that time, and on nothing else that the
stack holds. So the history is told by the changes and sizes alone (`Change.LastWritten`), and the
stack enters only with the lemmas on one change (`get_apply_of_writes` and those that follow it).
-/

namespace RegisterMachine

namespace ValueStack

inductive Change where
  | push (v : Value)
  | set (i : Nat) (v : Value)
  /-- grows the stack to a size, if it is smaller -/
  | ensureSize (n : Nat)
  | truncate (n : Nat)

namespace Change

def apply (s : ValueStack) : Change → ValueStack
  | push v => s.push v
  | set i v => s.set i v
  | ensureSize n => s.ensureSize n
  | truncate n => s.truncate n

/-- The size of a stack after a change, from the size before. -/
def sizeAfter (size : Nat) : Change → Nat
  | push _ => size + 1
  | set i _ => max size (i + 1)
  | ensureSize n => max size n
  | truncate n => min size n

/-- On a stack of `size` slots, the change puts the value `v` into slot `i`. -/
inductive Writes (size : Nat) : Change → Nat → Value → Prop
  | push {v : Value} : Writes size (push v) size v
  | set {i : Nat} {v : Value} : Writes size (set i v) i v

inductive CutsOff : Change → Nat → Prop
  | truncate {n i : Nat} (h : n ≤ i) : CutsOff (truncate n) i

variable {c d : Change} {cs before after : List Change} {s : ValueStack} {i size : Nat} {v : Value}

/-! ### One change -/

theorem size_apply (s : ValueStack) (c : Change) : (c.apply s).size = c.sizeAfter s.size := by
  cases c with
  | push v => exact size_push s v
  | set i v => exact size_set s i v
  | ensureSize n => exact size_ensureSize s n
  | truncate n => exact size_truncate s n

theorem get_apply_of_writes (h : c.Writes s.size i v) : (c.apply s).get i = v := by
  cases h with
  | push => exact (get_push s v s.size).trans (if_pos rfl)
  | set => exact (get_set s i i v).trans (if_pos rfl)

theorem get_apply_of_cutsOff (h : c.CutsOff i) : (c.apply s).get i = .nil := by
  cases h with
  | truncate h => exact (get_truncate s _ i).trans (if_neg (Nat.not_lt.2 h))

/-- A slot that a change does not touch reads as before, whether it is there or not. -/
theorem get_apply_of_not (hwrites : ∀ v, ¬ c.Writes s.size i v) (hcuts : ¬ c.CutsOff i) :
    (c.apply s).get i = s.get i := by
  cases c with
  | push v =>
    refine (get_push s v i).trans (if_neg ?_)
    rintro rfl
    exact hwrites v .push
  | set j v =>
    refine (get_set s j i v).trans (if_neg ?_)
    rintro rfl
    exact hwrites v .set
  | ensureSize n => exact get_ensureSize s n i
  | truncate n =>
    refine (get_truncate s n i).trans (if_pos ?_)
    exact Nat.lt_of_not_le fun h => hcuts (.truncate h)

theorem le_size_apply (hc : ∀ n, c ≠ truncate n) : s.size ≤ (c.apply s).size := by
  rw [size_apply]
  cases c with
  | push v => exact Nat.le_succ _
  | set i v => exact Nat.le_max_left _ _
  | ensureSize n => exact Nat.le_max_left _ _
  | truncate n => exact absurd rfl (hc n)

/-! ### Histories -/

def applyAll (s : ValueStack) (cs : List Change) : ValueStack := cs.foldl apply s

def sizeAfterAll (size : Nat) (cs : List Change) : Nat := cs.foldl sizeAfter size

/-- None of the changes of a stack of `size` slots writes slot `i`. -/
def Unwritten (i : Nat) (size : Nat) : List Change → Prop
  | [] => True
  | c :: cs => (∀ v, ¬ c.Writes size i v) ∧ Unwritten i (c.sizeAfter size) cs

def Uncut (i : Nat) (cs : List Change) : Prop := ∀ c ∈ cs, ¬ c.CutsOff i

/-- Among the changes of a stack of `size` slots, `c` comes between `before` and `after`, and none
after it touches slot `i`. -/
structure LastAt (i size : Nat) (cs before : List Change) (c : Change) (after : List Change) :
    Prop where
  split : cs = before ++ c :: after
  unwritten : Unwritten i (sizeAfterAll size (before ++ [c])) after
  uncut : Uncut i after

def LastWritten (size : Nat) (cs : List Change) (i : Nat) (v : Value) : Prop :=
  ∃ before c after, LastAt i size cs before c after ∧ c.Writes (sizeAfterAll size before) i v

theorem size_applyAll (s : ValueStack) (cs : List Change) :
    (applyAll s cs).size = sizeAfterAll s.size cs := by
  induction cs generalizing s with
  | nil => rfl
  | cons c cs ih =>
    change (applyAll (c.apply s) cs).size = sizeAfterAll (c.sizeAfter s.size) cs
    rw [ih, size_apply]

theorem applyAll_split (s : ValueStack) (before : List Change) (c : Change)
    (after : List Change) :
    applyAll s (before ++ c :: after) = applyAll (c.apply (applyAll s before)) after :=
  List.foldl_append

/-- The changes that come after a part of a history find a stack of the size that it leaves. -/
theorem sizeAfterAll_snoc (s : ValueStack) (before : List Change) (c : Change) :
    sizeAfterAll s.size (before ++ [c]) = (c.apply (applyAll s before)).size := by
  rw [← size_applyAll, applyAll_split]
  rfl

theorem get_applyAll_of_untouched (hunwritten : Unwritten i s.size cs) (huncut : Uncut i cs) :
    (applyAll s cs).get i = s.get i := by
  induction cs generalizing s with
  | nil => rfl
  | cons c cs ih =>
    rw [Uncut, List.forall_mem_cons] at huncut
    rw [Unwritten, ← size_apply] at hunwritten
    exact (ih hunwritten.2 huncut.2).trans (get_apply_of_not hunwritten.1 huncut.1)

/-- A slot that reads nil does so until it is written. -/
theorem get_applyAll_of_unwritten (hnil : s.get i = .nil) (hunwritten : Unwritten i s.size cs) :
    (applyAll s cs).get i = .nil := by
  induction cs generalizing s with
  | nil => exact hnil
  | cons c cs ih =>
    rw [Unwritten, ← size_apply] at hunwritten
    refine ih ?_ hunwritten.2
    by_cases hcuts : c.CutsOff i
    · exact get_apply_of_cutsOff hcuts
    · rw [get_apply_of_not hunwritten.1 hcuts, hnil]

/-- What the last change that touches a slot leaves there is what the slot reads. -/
theorem LastAt.get_applyAll (h : LastAt i s.size cs before c after) :
    (applyAll s cs).get i = (c.apply (applyAll s before)).get i := by
  obtain ⟨rfl, hunwritten, huncut⟩ := h
  rw [sizeAfterAll_snoc] at hunwritten
  rw [applyAll_split]
  exact get_applyAll_of_untouched hunwritten huncut

theorem LastAt.cons (h : LastAt i (c.sizeAfter size) cs before d after) :
    LastAt i size (c :: cs) (c :: before) d after :=
  ⟨congrArg (c :: ·) h.split, h.unwritten, h.uncut⟩

/-- A slot is untouched by a history, or there is a last change that touches it. -/
theorem exists_lastAt (i size : Nat) (cs : List Change) :
    (Unwritten i size cs ∧ Uncut i cs) ∨
      ∃ before c after, LastAt i size cs before c after ∧
        ((∃ v, c.Writes (sizeAfterAll size before) i v) ∨ c.CutsOff i) := by
  induction cs generalizing size with
  | nil => exact .inl ⟨trivial, nofun⟩
  | cons c cs ih =>
    rcases ih (c.sizeAfter size) with ⟨hunwritten, huncut⟩ | ⟨before, d, after, hlast, htouches⟩
    · by_cases htouches : (∃ v, c.Writes size i v) ∨ c.CutsOff i
      · exact .inr ⟨[], c, cs, ⟨rfl, hunwritten, huncut⟩, htouches⟩
      · rw [not_or, not_exists] at htouches
        exact .inl ⟨⟨htouches.1, hunwritten⟩, List.forall_mem_cons.2 ⟨htouches.2, huncut⟩⟩
    · exact .inr ⟨c :: before, d, after, hlast.cons, htouches⟩

theorem get_applyAll_of_lastWritten (h : LastWritten s.size cs i v) :
    (applyAll s cs).get i = v := by
  obtain ⟨before, c, after, hlast, hwrites⟩ := h
  rw [← size_applyAll] at hwrites
  exact hlast.get_applyAll.trans (get_apply_of_writes hwrites)

/-- A slot of a new stack reads nil unless it was written last. -/
theorem get_applyAll_of_not_lastWritten (hnil : s.get i = .nil)
    (h : ∀ v, ¬ LastWritten s.size cs i v) : (applyAll s cs).get i = .nil := by
  rcases exists_lastAt i s.size cs with ⟨hunwritten, huncut⟩ | ⟨before, c, after, hlast, htouches⟩
  · exact (get_applyAll_of_untouched hunwritten huncut).trans hnil
  · rcases htouches with ⟨v, hwrites⟩ | hcuts
    · exact absurd ⟨before, c, after, hlast, hwrites⟩ (h v)
    · exact hlast.get_applyAll.trans (get_apply_of_cutsOff hcuts)

/-- A slot that is cut off reads nil until it is written, whatever else happens to the stack. -/
theorem get_applyAll_truncate {n : Nat} (hn : n ≤ i)
    (h : Unwritten i (sizeAfterAll s.size (before ++ [truncate n])) after) :
    (applyAll s (before ++ truncate n :: after)).get i = .nil := by
  rw [sizeAfterAll_snoc] at h
  rw [applyAll_split]
  exact get_applyAll_of_unwritten (get_apply_of_cutsOff (.truncate hn)) h

end Change

theorem slice_eq_map (s : ValueStack) (start stop : Nat) :
    s.slice start (stop - start) = (List.range' start (stop - start)).map s.get := by
  rw [List.range'_eq_map_range, List.map_map]
  rfl

open Change

/-- **The register stack is an array that goes on with nil for ever.** After any changes of a new
stack, a slot reads the value that was put there last, if it was not cut off since, and nil
otherwise; so a slot that was cut off reads nil until it is written. A write makes the stack as long
as it takes and leaves all other slots as they are, values are copied from any range as they are
read, and only cutting off makes the stack shorter. -/
theorem reads_last_written (cs : List Change) :
    let s := applyAll empty cs
    (∀ i v, s.get i = v ↔
      LastWritten 0 cs i v ∨ v = .nil ∧ ∀ v', ¬ LastWritten 0 cs i v') ∧
    (∀ (before after : List Change) (n i : Nat), cs = before ++ .truncate n :: after → n ≤ i →
      Unwritten i (sizeAfterAll 0 (before ++ [.truncate n])) after → s.get i = .nil) ∧
    (∀ i v, (s.set i v).size = max s.size (i + 1) ∧ ∀ j, j ≠ i → (s.set i v).get j = s.get j) ∧
    (∀ start stop, s.slice start (stop - start) = (List.range' start (stop - start)).map s.get) ∧
    s.size = sizeAfterAll 0 cs ∧
    ∀ c : Change, (∀ n, c ≠ .truncate n) → s.size ≤ (c.apply s).size := by
  have hwritten {i : Nat} {v : Value} (h : LastWritten 0 cs i v) : (applyAll empty cs).get i = v :=
    get_applyAll_of_lastWritten h
  have hunwritten {i : Nat} (h : ∀ v, ¬ LastWritten 0 cs i v) : (applyAll empty cs).get i = .nil :=
    get_applyAll_of_not_lastWritten (get_empty i) h
  refine ⟨fun i v => ⟨?_, ?_⟩, ?_, fun i v => ⟨size_set _ i v, fun j hj => ?_⟩, slice_eq_map _,
    size_applyAll empty cs, fun c => le_size_apply⟩
  · rintro rfl
    by_cases h : ∃ v, LastWritten 0 cs i v
    · obtain ⟨v, hv⟩ := h
      rw [hwritten hv]
      exact .inl hv
    · rw [not_exists] at h
      exact .inr ⟨hunwritten h, h⟩
  · rintro (h | ⟨rfl, h⟩)
    · exact hwritten h
    · exact hunwritten h
  · rintro before after n i rfl hn h
    exact get_applyAll_truncate hn h
  · rw [get_set, if_neg (Ne.symm hj)]

/-- A slot is written, cut off and brought back by a write above it; then it is written again. -/
theorem brought_back_reads_nil :
    let cut : List Change := [.set 1 (.bool true), .truncate 1, .set 2 (.bool false)]
    let s := applyAll empty cut
    s.get 1 = .nil ∧ s.get 2 = .bool false ∧ s.size = 3 ∧
      (s.set 1 (.bool true)).get 2 = .bool false ∧ s.size ≤ (s.push .nil).size := by
  intro cut s
  obtain ⟨hread, hcut, hset, -, hsize, hgrows⟩ := reads_last_written cut
  have htop : LastWritten 0 cut 2 (.bool false) :=
    ⟨[.set 1 (.bool true), .truncate 1], _, [], ⟨rfl, trivial, nofun⟩, .set⟩
  refine ⟨?_, ?_, hsize.trans (by decide), ?_, hgrows (.push .nil) nofun⟩
  · refine hcut [.set 1 (.bool true)] [.set 2 (.bool false)] 1 1 rfl (Nat.le_refl 1) ⟨?_, trivial⟩
    rintro v ⟨⟩
  · exact (hread 2 _).2 (.inl htop)
  · rw [(hset 1 _).2 2 (by decide)]
    exact (hread 2 _).2 (.inl htop)

end ValueStack

end RegisterMachine
