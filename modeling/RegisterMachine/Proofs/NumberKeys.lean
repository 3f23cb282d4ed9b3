import RegisterMachine.Machine.Step
import RegisterMachine.Proofs.WholeNumbers

/-!
# Numbers as keys

A number that is used as a key of a table addresses the index that it is, and a number that is no
index addresses nothing. Only at the upper end of the indices this is not quite so. The largest
index, `2^64 - 1`, is no binary64 number, so what a number is compared with is `2^64`, and this
number passes. Its conversion to an index then ends at the largest one
(`World.arrayIndex?_eq_conversion`). No other number addresses this index, so different numbers
never address the same one (`World.Addresses.unique`).
-/

namespace RegisterMachine

namespace World

open Binary64

/-- A number addresses an index: the index that it is, or the last one if it is the number behind
all indices. -/
inductive Addresses (x : Float) : Nat → Prop
  | exact {n : Nat} (hpos : 1 ≤ n) (hfits : n < UInt64.size) (hx : value? x = some (n : ℚ)) :
      Addresses x n
  | past (hx : value? x = some (UInt64.size : ℚ)) : Addresses x (UInt64.size - 1)

variable {x y : Float} {n : Nat}

theorem addresses_past : Addresses 18446744073709551616 (UInt64.size - 1) :=
  .past (positive?_eq_some_iff.1 rfl).2

theorem arrayIndex?_of_positive? {k : Nat} (h : positive? x = some k) :
    arrayIndex? x = if k ≤ UInt64.size then some (min k (UInt64.size - 1)) else none := by
  rw [arrayIndex?, h]

theorem arrayIndex?_eq_some_iff : arrayIndex? x = some n ↔ Addresses x n := by
  constructor
  · intro h
    cases hx : positive? x with
    | none =>
      rw [arrayIndex?, hx] at h
      cases h
    | some k =>
      obtain ⟨hpos, hvalue⟩ := positive?_eq_some_iff.1 hx
      rw [arrayIndex?_of_positive? hx] at h
      split at h
      · rename_i hle
        obtain rfl := Option.some.inj h
        rcases hle.lt_or_eq with hlt | rfl
        · rw [Nat.min_eq_left (Nat.le_sub_one_of_lt hlt)]
          exact .exact hpos hlt hvalue
        · exact .past hvalue
      · cases h
  · rintro (⟨hpos, hfits, hx⟩ | hx)
    · rw [arrayIndex?_of_positive? (positive?_eq_some_iff.2 ⟨hpos, hx⟩), if_pos hfits.le,
        Nat.min_eq_left (Nat.le_sub_one_of_lt hfits)]
    · rw [arrayIndex?_of_positive? (positive?_eq_some_iff.2 ⟨by decide, hx⟩), if_pos le_rfl,
        Nat.min_eq_right (Nat.sub_le _ _)]

theorem arrayIndex?_eq_none_iff : arrayIndex? x = none ↔ ∀ n, ¬ Addresses x n := by
  simp only [Option.eq_none_iff_forall_ne_some, ne_eq, arrayIndex?_eq_some_iff]

theorem Addresses.unique (hx : Addresses x n) (hy : Addresses y n) : x = y := by
  -- the last index is odd, and too large for an odd number
  have hlast (z : Float) : value? z ≠ some ((UInt64.size - 1 : Nat) : ℚ) := fun hz =>
    absurd (even_of_value? (by decide) hz) (by decide)
  cases hx with
  | exact hpos hfits hx =>
    cases hy with
    | exact _ _ hy => exact value?_unique hpos hx hy
    | past => exact absurd hx (hlast x)
  | past hx =>
    cases hy with
    | exact _ _ hy => exact absurd hy (hlast y)
    | past hy => exact value?_unique (by decide) hx hy

theorem Addresses.eq_iff {k : Nat} (hx : Addresses x n) (hy : Addresses y k) :
    x = y ↔ n = k := by
  constructor
  · rintro rfl
    exact Option.some.inj ((arrayIndex?_eq_some_iff.2 hx).symm.trans (arrayIndex?_eq_some_iff.2 hy))
  · rintro rfl
    exact hx.unique hy

/-- The index of a number is what it is converted to, if it is whole and lies between one and the
largest index; but this largest index is rounded up. -/
theorem arrayIndex?_eq_conversion (x : Float) :
    arrayIndex? x =
      if (1.0 : Float) ≤ x ∧ isIntegral x = true ∧
          x ≤ (UInt64.ofNat (UInt64.size - 1)).toFloat then
        some x.toUInt64.toNat
      else none := by
  have hone : value? 1.0 = some ((1 : Nat) : ℚ) := (positive?_eq_some_iff.1 rfl).2
  have hlast : value? (UInt64.ofNat (UInt64.size - 1)).toFloat = some (UInt64.size : ℚ) :=
    (positive?_eq_some_iff.1 rfl).2
  cases hx : positive? x with
  | none =>
    rw [arrayIndex?, hx, if_neg]
    rintro ⟨hle, hintegral, -⟩
    obtain ⟨n, hn⟩ := exists_positive?_of_one_le hle hintegral
    cases hx.symm.trans hn
  | some n =>
    obtain ⟨hpos, hvalue⟩ := positive?_eq_some_iff.1 hx
    have hle := (le_iff_of_value? Nat.one_pos hpos hone hvalue).2 hpos
    have hintegral : isIntegral x = true := isIntegral_of_positive? hx
    have hfits := le_iff_of_value? hpos (by decide) hvalue hlast
    rw [arrayIndex?_of_positive? hx, toNat_toUInt64 hpos hvalue]
    simp only [hle, hintegral, hfits, true_and]

end World

/-! ### The instructions that index -/

namespace Machine

open World

def writeIndex (m : Machine) (id : TableId) (n : Nat) (value : Value) : Step :=
  match m.world.setIndex? id n value with
  | some world => .next { m with world }
  | none =>
    .failed m (.invalidKey ("index " ++ toString n ++ " out of range (array length "
      ++ toString (m.world.table id).length ++ ")"))

/-- The operands of a write to table `id` under the number `x`. -/
structure WritesUnder (m : Machine) (base : Nat) (i : Instruction) (id : TableId) (x : Float) :
    Prop where
  table : m.read (base + i.a) = .table id
  key : m.read (base + i.b) = .number x

/-- The operands of a read under the number `x` from table `id`, which has no metatable. -/
structure ReadsUnder (m : Machine) (base : Nat) (i : Instruction) (id : TableId) (x : Float) :
    Prop where
  table : m.read (base + i.b) = .table id
  key : m.read (base + i.c) = .number x
  metatable : (m.world.table id).metatable = none

variable {host : Host} {e : Nat} {m : Machine} {chunk : Chunk} {base pc : Nat} {i : Instruction}
  {id : TableId} {x : Float}

theorem WritesUnder.execute_setIndex (h : m.WritesUnder base i id x) :
    m.execute host e chunk base pc i .setIndex =
      match arrayIndex? x with
      | some n => m.writeIndex id n (m.read (base + i.c))
      | none => .failed m (.invalidKey (Value.numberText x ++ " is not a positive integer")) := by
  simp only [execute, h.table, h.key, World.setField]
  cases arrayIndex? x with
  | none => rfl
  | some n =>
    dsimp only [writeIndex]
    cases m.world.setIndex? id n (m.read (base + i.c)) <;> rfl

theorem ReadsUnder.getField_eq (h : m.ReadsUnder base i id x) :
    m.world.getField (.table id) (.number x) = .ok (rawGet (m.world.table id) (.number x)) := by
  have hhandler : m.world.metamethod? (.table id) .index = none := by
    rw [metamethod?, metatable?, h.metatable]
  change m.world.getFieldIn (.number x) (99 + 1) (.table id) = _
  rw [getFieldIn, hhandler, ownField]
  dsimp only
  split
  · rfl
  · rename_i hnil
    rw [Bool.not_eq_true, Bool.not_eq_false', Value.isNil_iff] at hnil
    rw [hnil]

theorem ReadsUnder.execute_getIndex (h : m.ReadsUnder base i id x) :
    m.execute host e chunk base pc i .getIndex =
      .next (m.write (base + i.a) (match arrayIndex? x with
        | some n => (m.world.table id).getIndex n
        | none => .nil)) := by
  simp only [execute, h.table, h.key, h.getField_eq]
  rfl

/-- **Numbers as keys.** A write under a number is the write at the index that the number
addresses, and its error names this index; a read from a table without a metatable is the read
there. If the number addresses no index, then the write is refused as not being under a positive
integer, and the read gives nil. Two numbers address the same index only if they are the same
number. -/
theorem number_keys_address_indices (x : Float) :
    (∀ n, Addresses x n → ∀ (host : Host) (e : Nat) (m : Machine) chunk base pc i id,
      (m.WritesUnder base i id x →
        m.execute host e chunk base pc i .setIndex =
          m.writeIndex id n (m.read (base + i.c))) ∧
      (m.ReadsUnder base i id x →
        m.execute host e chunk base pc i .getIndex =
          .next (m.write (base + i.a) ((m.world.table id).getIndex n)))) ∧
    ((∀ n, ¬ Addresses x n) → ∀ (host : Host) (e : Nat) (m : Machine) chunk base pc i id,
      (m.WritesUnder base i id x →
        m.execute host e chunk base pc i .setIndex =
          .failed m (.invalidKey (Value.numberText x ++ " is not a positive integer"))) ∧
      (m.ReadsUnder base i id x →
        m.execute host e chunk base pc i .getIndex = .next (m.write (base + i.a) .nil))) ∧
    (∀ y n k, Addresses x n → Addresses y k → (x = y ↔ n = k)) ∧
    arrayIndex? x =
      if (1.0 : Float) ≤ x ∧ Binary64.isIntegral x = true ∧
          x ≤ (UInt64.ofNat (UInt64.size - 1)).toFloat then
        some x.toUInt64.toNat
      else none := by
  refine ⟨fun n hn host e m chunk base pc i id => ⟨fun h => ?_, fun h => ?_⟩,
    fun hnone host e m chunk base pc i id => ⟨fun h => ?_, fun h => ?_⟩,
    fun y n k hx hy => hx.eq_iff hy, arrayIndex?_eq_conversion x⟩
  · rw [h.execute_setIndex, arrayIndex?_eq_some_iff.2 hn]
  · rw [h.execute_getIndex, arrayIndex?_eq_some_iff.2 hn]
  · rw [h.execute_setIndex, arrayIndex?_eq_none_iff.2 hnone]
  · rw [h.execute_getIndex, arrayIndex?_eq_none_iff.2 hnone]

/-- A table with one value, a number and another value are in the first registers. -/
def keyed (x : Float) : Machine :=
  { (Machine.idle 1).writeAll 0 [.table 0, .number x, .bool true] with
    world := { World.empty with tables := #[.ofArray #[.bool false]] } }

def keyedWrite (x : Float) : Step :=
  (keyed x).execute (fun _ _ w => (.ok .nil, w)) 0 default 0 0 (.abc .setIndex 0 1 2) .setIndex

def keyedRead (x : Float) : Step :=
  (keyed x).execute (fun _ _ w => (.ok .nil, w)) 0 default 0 0 (.abc .getIndex 3 0 1) .getIndex

/-- The number behind all indices is taken for the last one, and a fraction is refused. -/
theorem keyed_past_and_between :
    Addresses 18446744073709551616 18446744073709551615 ∧
    keyedWrite 18446744073709551616 = .failed (keyed 18446744073709551616)
      (.invalidKey "index 18446744073709551615 out of range (array length 1)") ∧
    keyedRead 18446744073709551616 = .next ((keyed 18446744073709551616).write 3 .nil) ∧
    (∀ n, ¬ Addresses 0.5 n) ∧
    keyedWrite 0.5 = .failed (keyed 0.5) (.invalidKey "0.5 is not a positive integer") ∧
    keyedRead 0.5 = .next ((keyed 0.5).write 3 .nil) := by
  have hwrites (x : Float) : (keyed x).WritesUnder 0 (.abc .setIndex 0 1 2) 0 x := ⟨rfl, rfl⟩
  have hreads (x : Float) : (keyed x).ReadsUnder 0 (.abc .getIndex 3 0 1) 0 x := ⟨rfl, rfl, rfl⟩
  have hbetween : ∀ n, ¬ Addresses 0.5 n := arrayIndex?_eq_none_iff.1 rfl
  obtain ⟨hpast, -⟩ := number_keys_address_indices 18446744073709551616
  obtain ⟨-, hrefused, -⟩ := number_keys_address_indices 0.5
  obtain ⟨hwrite, -⟩ := hpast _ addresses_past _ _ _ _ _ _ _ _
  obtain ⟨-, hread⟩ := hpast _ addresses_past _ _ _ _ _ _ _ _
  obtain ⟨hwrite', -⟩ := hrefused hbetween _ _ _ _ _ _ _ _
  obtain ⟨-, hread'⟩ := hrefused hbetween _ _ _ _ _ _ _ _
  exact ⟨addresses_past, (hwrite (hwrites _)).trans rfl, (hread (hreads _)).trans rfl, hbetween,
    (hwrite' (hwrites _)).trans rfl, (hread' (hreads _)).trans rfl⟩

end Machine

end RegisterMachine
