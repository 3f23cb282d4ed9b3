import RegisterMachine.Decimal.Shortest
import RegisterMachine.Proofs.Ranks

/-!
# Shortest decimals are rounded back

The decimal that is taken for a number lies in the interval of the reals that are rounded to the
number (`Binary64.isRankOf_shortest`). A grid has a point in the interval if it is finer than the
interval is wide (`Magnitude.onGrid?_spec`), so the search ends at one with seventeen digits, and
does not go below the width of the least interval.
-/

namespace RegisterMachine

-- A power of natural numbers means the same beside any other notion of powers.
attribute [local instance (2000)] instPowNat

def Decimal.value (d : Decimal) : ℚ := d.digits * 10 ^ d.exponent

namespace Decimal

theorem value_trim (fuel : Nat) (d : Decimal) : (d.trim fuel).value = d.value := by
  induction fuel generalizing d with
  | zero => rfl
  | succ fuel ih =>
    rw [trim]
    split
    · rename_i hzero
      rw [ih, value, value, zpow_add_one₀ (by norm_num)]
      have hdigits : (d.digits : ℚ) = 10 * (d.digits / 10 : Nat) := by
        exact_mod_cast (Nat.mul_div_cancel' (Nat.dvd_of_mod_eq_zero hzero.2)).symm
      rw [hdigits]
      ring
    · rfl

theorem digits_trim_le (fuel : Nat) (d : Decimal) : (d.trim fuel).digits ≤ d.digits := by
  induction fuel generalizing d with
  | zero => exact le_rfl
  | succ fuel ih =>
    rw [trim]
    split
    · exact (ih _).trans (Nat.div_le_self _ _)
    · exact le_rfl

theorem le_exponent_trim (fuel : Nat) (d : Decimal) : d.exponent ≤ (d.trim fuel).exponent := by
  induction fuel generalizing d with
  | zero => exact le_rfl
  | succ fuel ih =>
    rw [trim]
    split
    · exact le_trans (by simp) (ih _)
    · exact le_rfl

end Decimal

/-! ### The interval of a number -/

namespace Magnitude

/-- How far the interval of a number reaches down, in quarters of its last place. -/
def quartersBelow (m : Magnitude) : Nat := if m.hasCloseLowerNeighbour then 1 else 2

/-- A multiple of a quarter of the last place. -/
def quarters (m : Magnitude) (n : Nat) : ℚ := n / 4 * 2 ^ m.exponent

def low (m : Magnitude) : ℚ := m.quarters (4 * m.significand - m.quartersBelow)

def high (m : Magnitude) : ℚ := m.quarters (4 * m.significand + 2)

/-- A real lies in the interval of a number, to which the ends belong if the significand is
even. -/
def Holds (m : Magnitude) (q : ℚ) : Prop :=
  (m.low ≤ q ∧ q ≤ m.high) ∧ (m.significand % 2 = 0 ∨ m.low < q ∧ q < m.high)

theorem quarters_lt (m : Magnitude) {n k : Nat} (h : n < k) : m.quarters n < m.quarters k := by
  have hunit : (0 : ℚ) < 2 ^ m.exponent := zpow_pos (by norm_num) _
  have h : (n : ℚ) < k := by exact_mod_cast h
  exact mul_lt_mul_of_pos_right (by linarith) hunit

theorem value_eq_quarters (m : Magnitude) : m.value = m.quarters (4 * m.significand) := by
  rw [value, quarters]
  push_cast
  ring

theorem value_lt_high (m : Magnitude) : m.value < m.high := by
  rw [value_eq_quarters]
  exact m.quarters_lt (by omega)

theorem low_lt_value {m : Magnitude} (hm : 0 < m.significand) : m.low < m.value := by
  rw [value_eq_quarters]
  refine m.quarters_lt ?_
  rw [quartersBelow]
  split <;> omega

end Magnitude

namespace Binary64

theorem high_magnitudeOfRank (r : Nat) : (magnitudeOfRank r).high = middle r := by
  obtain ⟨c, m, rfl, hlow, hhigh⟩ := exists_binade r
  rw [middle_eq c hlow hhigh, magnitudeOfRank_eq c hlow hhigh, Magnitude.high, Magnitude.quarters]
  push_cast
  ring

/-- At the start of a binade the next number below is half as far as the next one above. -/
theorem low_magnitudeOfRank (r : Nat) : (magnitudeOfRank (r + 1)).low = middle r := by
  obtain ⟨c, m, hplace, hlow, hhigh⟩ := exists_binade (r + 1)
  rw [hplace, magnitudeOfRank_eq c hlow hhigh, Magnitude.low, Magnitude.quarters,
    Magnitude.quartersBelow]
  by_cases hstart : m = fractionBound ∧ c ≠ 0
  · obtain ⟨rfl, hc⟩ := hstart
    obtain ⟨b, rfl⟩ := Nat.exists_eq_succ_of_ne_zero hc
    have hr : r = b * fractionBound + (2 * fractionBound - 1) := by
      rw [Nat.succ_mul] at hplace
      have hbound : 0 < fractionBound := by decide
      omega
    have hclose : Magnitude.hasCloseLowerNeighbour
        ⟨fractionBound, ((b + 1 : Nat) : Int) - 1074⟩ = true := by
      rw [Magnitude.hasCloseLowerNeighbour, beq_self_eq_true, Bool.true_and, bne_iff_ne]
      dsimp only
      omega
    have hexponent : ((b + 1 : Nat) : Int) - 1074 = (b : Int) - 1074 + 1 := by push_cast; ring
    rw [hclose, if_pos rfl, hr, middle_eq b (.inr (by decide)) (by decide)]
    dsimp only
    rw [hexponent, zpow_add_one₀ (by norm_num)]
    norm_num [fractionBound]
    ring
  · have hm : 0 < m := by
      rcases hlow with rfl | hlow
      · omega
      · exact Nat.lt_of_lt_of_le (by decide) hlow
    obtain ⟨n, rfl⟩ := Nat.exists_eq_succ_of_ne_zero hm.ne'
    have hr : r = c * fractionBound + n := by omega
    have hclose : Magnitude.hasCloseLowerNeighbour ⟨n + 1, (c : Int) - 1074⟩ = false := by
      rw [Magnitude.hasCloseLowerNeighbour, Bool.and_eq_false_iff]
      by_cases hn : n + 1 = fractionBound
      · have hc : c = 0 := by
          by_contra hc
          exact hstart ⟨hn, hc⟩
        right
        rw [hc]
        rfl
      · left
        exact beq_false_of_ne hn
    have hquarters : 4 * (n + 1) - 2 = 4 * n + 2 := by omega
    rw [hclose, if_neg Bool.false_ne_true, hr, middle_eq c (by omega) (by omega)]
    dsimp only
    rw [hquarters]
    push_cast
    ring

/-- The interval of a number is what is rounded to its rank. -/
theorem isRankOf_of_holds {r : Nat} {q : ℚ} (hr : 0 < r) (h : (magnitudeOfRank r).Holds q) :
    IsRankOf q r := by
  obtain ⟨s, rfl⟩ : ∃ s, r = s + 1 := ⟨r - 1, by omega⟩
  obtain ⟨⟨hlow, hhigh⟩, hends⟩ := h
  rw [low_magnitudeOfRank, high_magnitudeOfRank] at hends
  rw [low_magnitudeOfRank] at hlow
  rw [high_magnitudeOfRank] at hhigh
  refine ⟨hhigh, fun t ht => ?_, fun hhalf => ?_⟩
  · rwa [← Nat.add_right_cancel ht]
  · rcases hends with heven | ⟨hlow, hhigh⟩
    · obtain ⟨c, m, hplace, hlow, hhigh⟩ := exists_binade (s + 1)
      rw [hplace, magnitudeOfRank_eq c hlow hhigh] at heven
      rw [hplace, rank_mod_two]
      exact heven
    · rcases hhalf with heq | ⟨t, ht, heq⟩
      · linarith
      · rw [← Nat.add_right_cancel ht] at heq
        linarith

end Binary64

/-! ### Points of a grid in the interval -/

namespace Magnitude

def gridFactor (m : Magnitude) (grid : Int) : ℚ :=
  4 * 2 ^ (-m.exponent).toNat * 10 ^ (-grid).toNat

theorem gridFactor_pos (m : Magnitude) (grid : Int) : 0 < m.gridFactor grid := by
  rw [gridFactor]
  positivity

theorem cast_scaled (m : Magnitude) (grid : Int) (n : Nat) :
    ((n * 2 ^ m.exponent.toNat * 10 ^ (-grid).toNat : Nat) : ℚ) =
      m.quarters n * m.gridFactor grid := by
  push_cast
  rw [quarters, gridFactor, ← zpow_mul_pow_toNat (by norm_num : (2 : ℚ) ≠ 0)]
  ring

theorem cast_unit (m : Magnitude) (grid : Int) :
    ((4 * m.denominator * 10 ^ grid.toNat : Nat) : ℚ) = 10 ^ grid * m.gridFactor grid := by
  rw [denominator]
  push_cast
  rw [gridFactor, ← zpow_mul_pow_toNat (by norm_num : (10 : ℚ) ≠ 0)]
  ring

section

variable (m : Magnitude) (grid : Int) (n k : Nat)

theorem scaled_le_iff :
    n * 2 ^ m.exponent.toNat * 10 ^ (-grid).toNat ≤ k * (4 * m.denominator * 10 ^ grid.toNat) ↔
      m.quarters n ≤ k * 10 ^ grid := by
  rw [← @Nat.cast_le ℚ, cast_scaled, Nat.cast_mul, cast_unit, ← mul_assoc,
    mul_le_mul_iff_left₀ (m.gridFactor_pos grid)]

theorem le_scaled_iff :
    k * (4 * m.denominator * 10 ^ grid.toNat) ≤ n * 2 ^ m.exponent.toNat * 10 ^ (-grid).toNat ↔
      k * 10 ^ grid ≤ m.quarters n := by
  rw [← @Nat.cast_le ℚ, cast_scaled, Nat.cast_mul, cast_unit, ← mul_assoc,
    mul_le_mul_iff_left₀ (m.gridFactor_pos grid)]

theorem scaled_lt_iff :
    n * 2 ^ m.exponent.toNat * 10 ^ (-grid).toNat < k * (4 * m.denominator * 10 ^ grid.toNat) ↔
      m.quarters n < k * 10 ^ grid := by
  rw [← not_le, le_scaled_iff, not_le]

theorem lt_scaled_iff :
    k * (4 * m.denominator * 10 ^ grid.toNat) < n * 2 ^ m.exponent.toNat * 10 ^ (-grid).toNat ↔
      k * 10 ^ grid < m.quarters n := by
  rw [← not_le, scaled_le_iff, not_le]

end

def IsAboveLow (m : Magnitude) (q : ℚ) : Prop :=
  if m.significand % 2 = 0 then m.low ≤ q else m.low < q

def IsBelowHigh (m : Magnitude) (q : ℚ) : Prop :=
  if m.significand % 2 = 0 then q ≤ m.high else q < m.high

theorem IsAboveLow.holds {m : Magnitude} {q : ℚ} (h : m.IsAboveLow q) (hq : q < m.high) :
    m.Holds q := by
  rw [IsAboveLow] at h
  split at h
  · rename_i heven
    exact ⟨⟨h, hq.le⟩, .inl heven⟩
  · exact ⟨⟨h.le, hq.le⟩, .inr ⟨h, hq⟩⟩

theorem IsBelowHigh.holds {m : Magnitude} {q : ℚ} (h : m.IsBelowHigh q) (hq : m.low < q) :
    m.Holds q := by
  rw [IsBelowHigh] at h
  split at h
  · rename_i heven
    exact ⟨⟨hq.le, h⟩, .inl heven⟩
  · exact ⟨⟨hq.le, h.le⟩, .inr ⟨hq, h⟩⟩

theorem le_low_of_not {m : Magnitude} {q : ℚ} (h : ¬ m.IsAboveLow q) : q ≤ m.low := by
  rw [IsAboveLow] at h
  split at h
  · exact (not_le.1 h).le
  · exact not_lt.1 h

theorem high_le_of_not {m : Magnitude} {q : ℚ} (h : ¬ m.IsBelowHigh q) : m.high ≤ q := by
  rw [IsBelowHigh] at h
  split at h
  · exact (not_le.1 h).le
  · exact not_lt.1 h

/-- What is known of a point that was found on a grid. -/
structure IsFound (m : Magnitude) (grid : Int) (d : Decimal) : Prop where
  exponent : d.exponent = grid
  holds : m.Holds d.value
  /-- the point is at most one unit of the grid above the value -/
  near : d.value ≤ m.value + 10 ^ grid

/-- A point that is found on a grid is in the interval, and one is found if the grid is finer than
the interval is wide. -/
theorem onGrid?_spec {m : Magnitude} (hm : 0 < m.significand) (rule : TieRule) (grid : Int) :
    (∀ d, m.onGrid? rule grid = some d → m.IsFound grid d) ∧
    (10 ^ grid < m.high - m.low → m.onGrid? rule grid ≠ none) := by
  unfold onGrid?
  extract_lets scaled value low high unit below above withEnds belowReads aboveReads gap takeAbove
  have hgrid : (0 : ℚ) < 10 ^ grid := zpow_pos (by norm_num) _
  have hunit : 0 < unit :=
    Nat.mul_pos (Nat.mul_pos (by decide) (Nat.pow_pos (by decide))) (Nat.pow_pos (by decide))
  have hbelow : below * 10 ^ grid ≤ m.value := by
    rw [value_eq_quarters]
    exact (m.le_scaled_iff grid _ below).1 (Nat.div_mul_le_self value unit)
  have habove : m.value < above * 10 ^ grid := by
    rw [value_eq_quarters]
    exact (m.scaled_lt_iff grid _ above).1 (Nat.lt_mul_of_div_lt (Nat.lt_succ_self _) hunit)
  have hstep : (above : ℚ) * 10 ^ grid = below * 10 ^ grid + 10 ^ grid := by
    push_cast [above]
    ring
  have hhigh := m.value_lt_high
  have hlow := low_lt_value hm
  have hbelowReads : belowReads ↔ m.IsAboveLow (below * 10 ^ grid) := by
    have hle : low ≤ below * unit ↔ m.low ≤ below * 10 ^ grid := m.scaled_le_iff grid _ below
    have hlt : low < below * unit ↔ m.low < below * 10 ^ grid := m.scaled_lt_iff grid _ below
    simp only [belowReads, withEnds, IsAboveLow, beq_iff_eq, hle, hlt]
  have haboveReads : aboveReads ↔ m.IsBelowHigh (above * 10 ^ grid) := by
    have hle : above * unit ≤ high ↔ above * 10 ^ grid ≤ m.high := m.le_scaled_iff grid _ above
    have hlt : above * unit < high ↔ above * 10 ^ grid < m.high := m.lt_scaled_iff grid _ above
    simp only [aboveReads, withEnds, IsBelowHigh, beq_iff_eq, hle, hlt]
  have hfoundBelow (h : decide belowReads = true) : m.IsFound grid ⟨below, grid⟩ := by
    refine ⟨rfl, (hbelowReads.1 (of_decide_eq_true h)).holds ?_, ?_⟩
    · linarith
    · exact hbelow.trans (by linarith)
  have hfoundAbove (h : decide aboveReads = true) : m.IsFound grid ⟨above, grid⟩ := by
    refine ⟨rfl, (haboveReads.1 (of_decide_eq_true h)).holds ?_, ?_⟩
    · linarith
    · exact hstep.le.trans (by linarith)
  constructor
  · intro d hd
    split at hd
    · rename_i hbelow habove
      cases hd
      split
      · exact hfoundAbove habove
      · exact hfoundBelow hbelow
    · rename_i hbelow _
      cases hd
      exact hfoundBelow hbelow
    · rename_i habove
      cases hd
      exact hfoundAbove habove
    · cases hd
  · intro hwidth
    split
    · exact Option.some_ne_none _
    · exact Option.some_ne_none _
    · exact Option.some_ne_none _
    · rename_i hnot hnot'
      have hlower := le_low_of_not (hbelowReads.not.1 (of_decide_eq_false hnot))
      have hupper := high_le_of_not (haboveReads.not.1 (of_decide_eq_false hnot'))
      linarith

/-! ### The decimal exponent -/

theorem reachesPowerOfTen_iff (m : Magnitude) (k : Int) :
    m.reachesPowerOfTen k = true ↔ 10 ^ k ≤ m.value := by
  have hfactor : (0 : ℚ) < m.denominator * 10 ^ (-k).toNat :=
    mul_pos (Nat.cast_pos.2 m.denominator_pos) (by positivity)
  have hpower : ((m.denominator * 10 ^ k.toNat : Nat) : ℚ) =
      10 ^ k * (m.denominator * 10 ^ (-k).toNat) := by
    push_cast
    rw [← zpow_mul_pow_toNat (by norm_num : (10 : ℚ) ≠ 0) k]
    ring
  have hvalue : ((m.numerator * 10 ^ (-k).toNat : Nat) : ℚ) =
      m.value * (m.denominator * 10 ^ (-k).toNat) := by
    push_cast
    rw [← value_mul_denominator, mul_assoc]
  rw [reachesPowerOfTen, decide_eq_true_iff, ← @Nat.cast_le ℚ, hpower, hvalue,
    mul_le_mul_iff_left₀ hfactor]

/-- The exponent of the greatest power of two that is not above the value. -/
def binaryExponent (m : Magnitude) : Int := (m.significand.log2 : Int) + m.exponent

theorem pow_binaryExponent_le {m : Magnitude} (hm : 0 < m.significand) :
    2 ^ m.binaryExponent ≤ m.value := by
  have hlog : ((2 ^ m.significand.log2 : Nat) : ℚ) ≤ m.significand := by
    exact_mod_cast Nat.log2_self_le hm.ne'
  rw [binaryExponent, zpow_add₀ (by norm_num), zpow_natCast, value]
  push_cast at hlog
  exact mul_le_mul_of_nonneg_right hlog (zpow_pos (by norm_num) _).le

theorem lt_pow_binaryExponent (m : Magnitude) : m.value < 2 ^ (m.binaryExponent + 1) := by
  have hlog : (m.significand : ℚ) < ((2 ^ (m.significand.log2 + 1) : Nat) : ℚ) := by
    exact_mod_cast Nat.lt_log2_self
  have hexponent : m.binaryExponent + 1 = ((m.significand.log2 + 1 : Nat) : Int) + m.exponent := by
    rw [binaryExponent]
    push_cast
    ring
  rw [hexponent, zpow_add₀ (by norm_num), zpow_natCast, value]
  push_cast at hlog
  exact mul_lt_mul_of_pos_right hlog (zpow_pos (by norm_num) _)

def guess (b : Int) : Int := Int.fdiv (b * 30103) 100000

/-- The guess is right up to one unit, for all exponents that there are. -/
theorem guess_bounds {b : Int} (hlow : -1074 ≤ b) (hhigh : b ≤ 1023) :
    (2 : ℚ) ^ (b + 1) ≤ 10 ^ (guess b + 2) ∧ (10 : ℚ) ^ (guess b - 1) ≤ 2 ^ b := by
  have hle {x y : ℚ} {e f : Int} (hx : 0 < x) (hy : 0 < y)
      (h : x ^ e.toNat * y ^ (-f).toNat ≤ y ^ f.toNat * x ^ (-e).toNat) : x ^ e ≤ y ^ f := by
    have hfactor : 0 < x ^ (-e).toNat * y ^ (-f).toNat := by positivity
    rw [← zpow_mul_pow_toNat hx.ne' e, ← zpow_mul_pow_toNat hy.ne' f] at h
    refine le_of_mul_le_mul_right ?_ hfactor
    linarith
  have hchecked : ∀ i : Nat, i < 2098 →
      2 ^ ((i : Int) - 1074 + 1).toNat * 10 ^ (-(guess ((i : Int) - 1074) + 2)).toNat ≤
        10 ^ (guess ((i : Int) - 1074) + 2).toNat * 2 ^ (-((i : Int) - 1074 + 1)).toNat ∧
      10 ^ (guess ((i : Int) - 1074) - 1).toNat * 2 ^ (-((i : Int) - 1074)).toNat ≤
        2 ^ ((i : Int) - 1074).toNat * 10 ^ (-(guess ((i : Int) - 1074) - 1)).toNat := by
    decide +kernel
  obtain ⟨i, hi⟩ : ∃ i : Nat, (i : Int) - 1074 = b := ⟨(b + 1074).toNat, by omega⟩
  obtain ⟨hupper, hlower⟩ := hchecked i (by omega)
  rw [hi] at hupper hlower
  exact ⟨hle (by norm_num) (by norm_num) (by exact_mod_cast hupper),
    hle (by norm_num) (by norm_num) (by exact_mod_cast hlower)⟩

theorem decimalExponent_spec {m : Magnitude} (hm : 0 < m.significand)
    (hlow : -1074 ≤ m.binaryExponent) (hhigh : m.binaryExponent ≤ 1023) :
    10 ^ m.decimalExponent ≤ m.value ∧ m.value < 10 ^ (m.decimalExponent + 1) := by
  obtain ⟨hupper, hlower⟩ := guess_bounds hlow hhigh
  have hpow := pow_binaryExponent_le hm
  have hpow' := m.lt_pow_binaryExponent
  have hguess : m.decimalExponent =
      if m.reachesPowerOfTen (guess m.binaryExponent + 1) then guess m.binaryExponent + 1
      else if m.reachesPowerOfTen (guess m.binaryExponent) then guess m.binaryExponent
      else guess m.binaryExponent - 1 := rfl
  rw [hguess]
  split
  · rename_i hreaches
    refine ⟨(m.reachesPowerOfTen_iff _).1 hreaches, ?_⟩
    rw [add_assoc]
    exact hpow'.trans_le hupper
  · rename_i hnext
    rw [m.reachesPowerOfTen_iff, not_le] at hnext
    split
    · rename_i hreaches
      exact ⟨(m.reachesPowerOfTen_iff _).1 hreaches, hnext⟩
    · rename_i hguess
      rw [m.reachesPowerOfTen_iff, not_le] at hguess
      rw [sub_add_cancel]
      exact ⟨hlower.trans hpow, hguess⟩

/-! ### The search -/

theorem exists_found {m : Magnitude} (hm : 0 < m.significand) (rule : TieRule) {count : Nat}
    (hcount : count < 17)
    (hwidth : 10 ^ (m.decimalExponent - count) < m.high - m.low) :
    ∃ (a : Nat) (d : Decimal), a ≤ count ∧ m.IsFound (m.decimalExponent - a) d ∧
      m.shortest rule = d.trim 20 := by
  have hhit : ((List.range 17).findSome? fun count =>
      m.onGrid? rule (m.decimalExponent - (count : Nat))).isSome := by
    rw [List.isSome_findSome?, List.any_eq_true]
    exact ⟨count, List.mem_range.2 hcount,
      Option.isSome_iff_ne_none.2 ((onGrid?_spec hm rule _).2 hwidth)⟩
  obtain ⟨d, hd⟩ := Option.isSome_iff_exists.1 hhit
  obtain ⟨before, a, behind, hrange, hfound, hnone⟩ := List.findSome?_eq_some_iff.1 hd
  refine ⟨a, d, ?_, (onGrid?_spec hm rule _).1 d hfound, ?_⟩
  · -- no grid in front of the hit has a point, and that of `count` has one
    have hmem : count ∈ before ++ a :: behind := by
      rw [← hrange]
      exact List.mem_range.2 hcount
    have hsorted : (before ++ a :: behind).Pairwise (· < ·) := hrange ▸ List.pairwise_lt_range
    rcases List.mem_append.1 hmem with hbefore | hmem
    · exact absurd (hnone count hbefore) ((onGrid?_spec hm rule _).2 hwidth)
    · rcases List.mem_cons.1 hmem with rfl | hbehind
      · exact le_rfl
      · exact (List.rel_of_pairwise_cons (List.pairwise_append.1 hsorted).2.1 hbehind).le
  · rw [shortest, hd]
    rfl

theorem IsFound.digits_le {m : Magnitude} {a : Nat} {d : Decimal}
    (h : m.IsFound (m.decimalExponent - a) d) (hvalue : m.value < 10 ^ (m.decimalExponent + 1)) :
    d.digits ≤ 10 ^ (a + 1) := by
  have hgrid : (0 : ℚ) < 10 ^ (m.decimalExponent - a) := zpow_pos (by norm_num) _
  have hpower : (10 : ℚ) ^ (m.decimalExponent + 1) =
      10 ^ (a + 1) * 10 ^ (m.decimalExponent - a) := by
    rw [← zpow_natCast, ← zpow_add₀ (by norm_num)]
    congr 1
    push_cast
    ring
  have hnear := h.near
  rw [Decimal.value, h.exponent] at hnear
  rw [hpower] at hvalue
  have hdigits : (d.digits : ℚ) * 10 ^ (m.decimalExponent - a) <
      ((10 ^ (a + 1) + 1 : Nat) : ℚ) * 10 ^ (m.decimalExponent - a) := by
    push_cast
    linarith
  have hdigits : (d.digits : ℚ) < ((10 ^ (a + 1) + 1 : Nat) : ℚ) :=
    lt_of_mul_lt_mul_right hdigits hgrid.le
  exact Nat.lt_succ_iff.1 (Nat.cast_lt.1 hdigits)

end Magnitude

namespace Binary64

theorem magnitudeOfRank_bounds {r : Nat} (hr : 0 < r) (hfinite : r < infinityRank) :
    0 < (magnitudeOfRank r).significand ∧ -1074 ≤ (magnitudeOfRank r).binaryExponent ∧
      (magnitudeOfRank r).binaryExponent ≤ 1023 := by
  obtain ⟨c, m, rfl, hm, hlow, hhigh⟩ := exists_binade_of_pos hr
  have hbound : fractionBound = 2 ^ 52 := rfl
  have hrank : infinityRank = 2047 * fractionBound := by decide
  have hlog : m.log2 < 53 := (Nat.log2_lt hm.ne').2 (by omega)
  rw [magnitudeOfRank_eq c hlow hhigh, Magnitude.binaryExponent]
  dsimp only
  refine ⟨hm, by omega, ?_⟩
  rcases hlow with rfl | hlow
  · omega
  · have hc : (c + 1) * fractionBound < 2047 * fractionBound := by
      rw [Nat.succ_mul]
      omega
    have hc := Nat.lt_of_mul_lt_mul_right hc
    omega

/-- The interval of a number is as wide as the half gaps on both sides of it. -/
theorem width_eq (s : Nat) : (magnitudeOfRank (s + 1)).high - (magnitudeOfRank (s + 1)).low =
    (gap s + gap (s + 1)) / 2 := by
  rw [high_magnitudeOfRank, low_magnitudeOfRank, middle, middle, rankValue_succ]
  ring

theorem rankValue_succ_le (s : Nat) : rankValue (s + 1) ≤ 2 * fractionBound * gap s := by
  obtain ⟨c, m, rfl, hlow, hhigh⟩ := exists_binade s
  have hm : ((m + 1 : Nat) : ℚ) ≤ (2 * fractionBound : Nat) := by exact_mod_cast hhigh
  calc rankValue (c * fractionBound + m + 1)
      = ((m + 1 : Nat) : ℚ) * gap (c * fractionBound + m) := by
        rw [rankValue_succ, rankValue_eq c hlow hhigh.le, gap, binade_eq c hlow hhigh]
        push_cast
        ring
    _ ≤ 2 * fractionBound * gap (c * fractionBound + m) := by
        push_cast at hm ⊢
        exact mul_le_mul_of_nonneg_right hm (gap_pos _).le

theorem pow_lt_least : (10 : ℚ) ^ (-324 : Int) < 2 ^ (-1074 : Int) := by
  have hpow : 2 ^ 1074 < 10 ^ 324 := by decide +kernel
  rw [zpow_neg, zpow_neg, inv_lt_inv₀ (zpow_pos (by norm_num) _) (zpow_pos (by norm_num) _)]
  exact_mod_cast hpow

/-- Seventeen digits are fine enough for the interval of every number. -/
theorem lt_width {s : Nat} {E : Int} (hE : 10 ^ E ≤ rankValue (s + 1)) :
    10 ^ (E - 16) < (magnitudeOfRank (s + 1)).high - (magnitudeOfRank (s + 1)).low := by
  have hsplit : (10 : ℚ) ^ E = 10 ^ (E - 16) * 10 ^ 16 := by
    rw [← zpow_natCast, ← zpow_add₀ (by norm_num)]
    congr 1
    push_cast
    ring
  have hvalue := rankValue_succ_le s
  rw [cast_fractionBound] at hvalue
  have hgap := gap_le_gap (Nat.le_succ s)
  have hpos := gap_pos s
  rw [width_eq]
  norm_num at hsplit
  linarith

/-- **The shortest decimal is rounded back.** It has no more than seventeen digits, but for a power
of ten, and its exponent is not below that of the least number. -/
theorem isRankOf_shortest {r : Nat} (hr : 0 < r) (hfinite : r < infinityRank) (rule : TieRule) :
    IsRankOf ((magnitudeOfRank r).shortest rule).value r ∧
      ((magnitudeOfRank r).shortest rule).digits ≤ 10 ^ 17 ∧
      -324 ≤ ((magnitudeOfRank r).shortest rule).exponent := by
  obtain ⟨s, rfl⟩ : ∃ s, r = s + 1 := ⟨r - 1, by omega⟩
  obtain ⟨hm, hlow, hhigh⟩ := magnitudeOfRank_bounds hr hfinite
  obtain ⟨hreaches, hvalue⟩ := Magnitude.decimalExponent_spec hm hlow hhigh
  have hleast := pow_lt_least
  have hgap := le_gap s
  have hgap' := gap_le_gap (Nat.le_succ s)
  obtain ⟨E, hE⟩ : ∃ E, (magnitudeOfRank (s + 1)).decimalExponent = E := ⟨_, rfl⟩
  rw [hE] at hreaches hvalue
  have hbelow : -324 < E + 1 := by
    refine (zpow_lt_zpow_iff_right₀ (by norm_num : (1 : ℚ) < 10)).1 ?_
    change rankValue (s + 1) < _ at hvalue
    rw [rankValue_succ] at hvalue
    linarith [rankValue_nonneg s]
  -- the search ends at a grid that is not finer than the least number asks for
  obtain ⟨count, hcount, hgrid, hwidth⟩ : ∃ count : Nat, count < 17 ∧ -324 ≤ E - count ∧
      10 ^ (E - count) < (magnitudeOfRank (s + 1)).high - (magnitudeOfRank (s + 1)).low := by
    rcases Int.lt_or_le (E - 16) (-324) with hfine | hcoarse
    · refine ⟨(E + 324).toNat, by omega, by omega, ?_⟩
      have hgrid : E - ((E + 324).toNat : Int) = -324 := by omega
      rw [hgrid, width_eq]
      linarith
    · exact ⟨16, by omega, hcoarse, lt_width hreaches⟩
  obtain ⟨a, d, ha, hfound, hd⟩ := Magnitude.exists_found hm rule hcount (hE ▸ hwidth)
  rw [hd]
  refine ⟨?_, ?_, ?_⟩
  · rw [Decimal.value_trim]
    exact isRankOf_of_holds hr hfound.holds
  · calc (d.trim 20).digits ≤ d.digits := d.digits_trim_le 20
      _ ≤ 10 ^ (a + 1) := hfound.digits_le (hE.symm ▸ hvalue)
      _ ≤ 10 ^ 17 := Nat.pow_le_pow_right (by decide) (by omega)
  · have hexponent := hfound.exponent
    have htrim := d.le_exponent_trim 20
    omega

end Binary64

end RegisterMachine
