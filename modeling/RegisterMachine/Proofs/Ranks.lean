import Mathlib.Algebra.Order.Field.Rat
import Mathlib.Tactic.Linarith
import Mathlib.Tactic.Ring
import RegisterMachine.Decimal.Magnitude

/-!
# The ranks of binary64 numbers

The bits of a binary64 number that is not negative, read as a natural number, are its place among
these numbers: the next number has the next bits, also where the exponent changes. This place is
called the rank here. Ranks are not bounded, as if there were always larger exponents.

A real number is rounded to a rank if it lies between the middles of the gaps on both sides of the
rank, and a middle belongs to the even rank of its two neighbours (`IsRankOf`). So roundings can be
compared by their ranks. Numbers that are near each other relatively have ranks that are near each
other (`IsRankOf.near`); that is the other side of the bound on the relative error of a rounding
(`IsRankOf.le_of_normal`, `IsRankOf.ge_of_normal`).
-/

namespace RegisterMachine

-- A power of natural numbers means the same beside any other notion of powers.
attribute [local instance (2000)] instPowNat

def Magnitude.value (m : Magnitude) : ℚ := m.significand * 2 ^ m.exponent

theorem Magnitude.zpow_mul_pow_toNat {b : ℚ} (hb : b ≠ 0) (e : Int) :
    b ^ e * b ^ (-e).toNat = b ^ e.toNat := by
  rw [← zpow_natCast, ← zpow_natCast, ← zpow_add₀ hb]
  congr 1
  omega

theorem Magnitude.denominator_pos (m : Magnitude) : 0 < m.denominator := Nat.two_pow_pos _

theorem Magnitude.value_mul_denominator (m : Magnitude) :
    m.value * m.denominator = m.numerator := by
  rw [value, denominator, numerator]
  push_cast
  rw [mul_assoc, zpow_mul_pow_toNat (by norm_num)]

namespace Binary64

/-- The number of a rank. -/
def magnitudeOfRank (r : Nat) : Magnitude :=
  if r / fractionBound = 0 then ⟨r % fractionBound, -1074⟩
  else ⟨r % fractionBound + fractionBound, ((r / fractionBound : Nat) : Int) - 1075⟩

/-- The number of exponents below that of a rank, where subnormal numbers have the exponent of the
least normal ones. -/
def binade (r : Nat) : Nat := r / fractionBound - 1

def rankValue (r : Nat) : ℚ := (magnitudeOfRank r).value

def infinityRank : Nat := 0x7FF0000000000000

/-- The distance from the number of a rank to the next one. -/
def gap (r : Nat) : ℚ := 2 ^ ((binade r : Int) - 1074)

/-- The middle between the number of a rank and the next one. -/
def middle (r : Nat) : ℚ := rankValue r + gap r / 2

theorem gap_pos (r : Nat) : 0 < gap r := zpow_pos (by norm_num) _

theorem le_gap (r : Nat) : 2 ^ (-1074 : Int) ≤ gap r :=
  zpow_le_zpow_right₀ (by norm_num) (by omega)

theorem magnitudeOfRank_eq (c : Nat) {m : Nat} (hlow : c = 0 ∨ fractionBound ≤ m)
    (hhigh : m < 2 * fractionBound) :
    magnitudeOfRank (c * fractionBound + m) = ⟨m, (c : Int) - 1074⟩ := by
  have hbound : 0 < fractionBound := by decide
  rcases Nat.lt_or_ge m fractionBound with hsub | hnormal
  · have hc : c = 0 := by omega
    subst hc
    have hdiv : (0 * fractionBound + m) / fractionBound = 0 := Nat.div_eq_of_lt (by omega)
    have hmod : (0 * fractionBound + m) % fractionBound = m := by
      rw [Nat.zero_mul, Nat.zero_add, Nat.mod_eq_of_lt hsub]
    rw [magnitudeOfRank, if_pos hdiv, hmod]
    rfl
  · obtain ⟨f, rfl⟩ := Nat.exists_eq_add_of_le hnormal
    have hsum : c * fractionBound + (fractionBound + f) = f + (c + 1) * fractionBound := by ring
    have hf : f < fractionBound := by omega
    have hdiv : (f + (c + 1) * fractionBound) / fractionBound = c + 1 := by
      rw [Nat.add_mul_div_right _ _ hbound, Nat.div_eq_of_lt hf, Nat.zero_add]
    have hmod : (f + (c + 1) * fractionBound) % fractionBound = f := by
      rw [Nat.add_mul_mod_self_right, Nat.mod_eq_of_lt hf]
    have hexponent : ((c + 1 : Nat) : Int) - 1075 = (c : Int) - 1074 := by push_cast; ring
    rw [hsum, magnitudeOfRank, hdiv, hmod, if_neg (Nat.succ_ne_zero c), hexponent,
      Nat.add_comm f]

/-- Inside of a binade, and up to its end, the values are the multiples of the gap. -/
theorem rankValue_eq (c : Nat) {m : Nat} (hlow : c = 0 ∨ fractionBound ≤ m)
    (hhigh : m ≤ 2 * fractionBound) :
    rankValue (c * fractionBound + m) = m * 2 ^ ((c : Int) - 1074) := by
  rcases hhigh.lt_or_eq with hlt | rfl
  · rw [rankValue, magnitudeOfRank_eq c hlow hlt, Magnitude.value]
  · -- the end of the binade is the start of the next one
    have hsum :
        c * fractionBound + 2 * fractionBound = (c + 1) * fractionBound + fractionBound := by
      ring
    have hexponent : ((c + 1 : Nat) : Int) - 1074 = (c : Int) - 1074 + 1 := by push_cast; ring
    rw [rankValue, hsum, magnitudeOfRank_eq (c + 1) (.inr le_rfl) (by decide), Magnitude.value]
    dsimp only
    rw [hexponent, zpow_add_one₀ (by norm_num)]
    push_cast
    ring

theorem rankValue_end (c : Nat) :
    rankValue ((c + 2) * fractionBound) = 2 * fractionBound * 2 ^ ((c : Int) - 1074) := by
  have hsum : (c + 2) * fractionBound = c * fractionBound + 2 * fractionBound := by ring
  rw [hsum, rankValue_eq c (.inr (by decide)) le_rfl]
  push_cast
  ring

theorem binade_eq (c : Nat) {m : Nat} (hlow : c = 0 ∨ fractionBound ≤ m)
    (hhigh : m < 2 * fractionBound) : binade (c * fractionBound + m) = c := by
  have hbound : 0 < fractionBound := by decide
  rw [binade, Nat.add_comm, Nat.add_mul_div_right _ _ hbound]
  rcases Nat.lt_or_ge m fractionBound with hsub | hnormal
  · rw [Nat.div_eq_of_lt hsub]
    omega
  · have hdiv : m / fractionBound = 1 :=
      Nat.div_eq_of_lt_le (by omega) (by omega)
    rw [hdiv]
    omega

theorem exists_binade (r : Nat) : ∃ c m, r = c * fractionBound + m ∧
    (c = 0 ∨ fractionBound ≤ m) ∧ m < 2 * fractionBound := by
  have hbound : 0 < fractionBound := by decide
  refine ⟨r / fractionBound - 1, r - (r / fractionBound - 1) * fractionBound, ?_⟩
  have hdiv := Nat.div_add_mod r fractionBound
  have hmod := Nat.mod_lt r hbound
  generalize r / fractionBound = q at *
  rw [Nat.mul_comm] at hdiv
  cases q with
  | zero => omega
  | succ q =>
    rw [Nat.succ_mul] at hdiv
    rw [Nat.add_sub_cancel]
    omega

theorem exists_binade_of_pos {r : Nat} (hr : 0 < r) : ∃ c m, r = c * fractionBound + m ∧
    0 < m ∧ (c = 0 ∨ fractionBound ≤ m) ∧ m < 2 * fractionBound := by
  obtain ⟨c, m, rfl, hlow, hhigh⟩ := exists_binade r
  refine ⟨c, m, rfl, ?_, hlow, hhigh⟩
  rcases hlow with rfl | hlow
  · omega
  · exact Nat.lt_of_lt_of_le (by decide) hlow

theorem rank_mod_two (c m : Nat) : (c * fractionBound + m) % 2 = m % 2 := by
  have hbound : fractionBound = 2 * (fractionBound / 2) := by decide
  rw [hbound, ← Nat.mul_assoc, Nat.mul_comm c, Nat.mul_assoc, Nat.mul_add_mod]

theorem middle_eq (c : Nat) {m : Nat} (hlow : c = 0 ∨ fractionBound ≤ m)
    (hhigh : m < 2 * fractionBound) :
    middle (c * fractionBound + m) = (m + 1 / 2) * 2 ^ ((c : Int) - 1074) := by
  rw [middle, gap, rankValue_eq c hlow (Nat.le_of_lt hhigh), binade_eq c hlow hhigh]
  ring

theorem rankValue_succ (r : Nat) : rankValue (r + 1) = rankValue r + gap r := by
  obtain ⟨c, m, rfl, hlow, hhigh⟩ := exists_binade r
  rw [Nat.add_assoc, rankValue_eq c (by omega) hhigh, rankValue_eq c hlow (Nat.le_of_lt hhigh),
    gap, binade_eq c hlow hhigh]
  push_cast
  ring

theorem gap_le_gap {r s : Nat} (h : r ≤ s) : gap r ≤ gap s := by
  refine zpow_le_zpow_right₀ (by norm_num) ?_
  have hdiv : r / fractionBound ≤ s / fractionBound := Nat.div_le_div_right h
  rw [binade, binade]
  omega

theorem gap_le_two_mul_gap {r s : Nat} (h : s ≤ r + fractionBound) : gap s ≤ 2 * gap r := by
  have hdiv : s / fractionBound ≤ r / fractionBound + 1 := by
    rw [← Nat.add_div_right r (by decide)]
    exact Nat.div_le_div_right h
  have hgap : 2 * gap r = 2 ^ ((binade r : Int) - 1074 + 1) := by
    rw [zpow_add_one₀ (by norm_num), gap]
    ring
  rw [hgap]
  refine zpow_le_zpow_right₀ (by norm_num) ?_
  rw [binade, binade]
  omega

theorem middle_lt_middle_succ (r : Nat) : middle r < middle (r + 1) := by
  rw [middle, middle, rankValue_succ]
  linarith [gap_pos r, gap_pos (r + 1)]

theorem strictMono_middle : StrictMono middle := strictMono_nat_of_lt_succ middle_lt_middle_succ

theorem strictMono_rankValue : StrictMono rankValue :=
  strictMono_nat_of_lt_succ fun r => by
    rw [rankValue_succ]
    linarith [gap_pos r]

/-! ### Rounding to ranks -/

structure IsRankOf (q : ℚ) (r : Nat) : Prop where
  le_middle : q ≤ middle r
  middle_le : ∀ s, r = s + 1 → middle s ≤ q
  /-- halves go to the even rank -/
  even : (q = middle r ∨ ∃ s, r = s + 1 ∧ q = middle s) → r % 2 = 0

namespace IsRankOf

variable {p q : ℚ} {r s : Nat}

theorem le_of_lt_middle (h : IsRankOf q r) (hq : q < middle s) : r ≤ s := by
  by_contra hlt
  obtain ⟨t, rfl⟩ : ∃ t, r = t + 1 := ⟨r - 1, by omega⟩
  have hmiddle : middle s ≤ middle t := strictMono_middle.monotone (by omega)
  linarith [h.middle_le t rfl]

theorem lt_of_middle_lt (h : IsRankOf q r) (hq : middle s < q) : s < r := by
  by_contra hle
  have hmiddle : middle r ≤ middle s := strictMono_middle.monotone (by omega)
  linarith [h.le_middle]

theorem unique (h : IsRankOf q r) (h' : IsRankOf q s) : r = s := by
  have hnotlt {r s : Nat} (h : IsRankOf q r) (h' : IsRankOf q s) : ¬ r < s := by
    intro hlt
    obtain ⟨t, rfl⟩ : ∃ t, s = t + 1 := ⟨s - 1, by omega⟩
    have hbelow := h'.middle_le t rfl
    have hmiddle : middle r ≤ middle t := strictMono_middle.monotone (by omega)
    have hq : q = middle r := by linarith [h.le_middle]
    have ht : r = t := strictMono_middle.injective (by linarith [h.le_middle])
    have heven := h.even (.inl hq)
    have heven' := h'.even (.inr ⟨t, rfl, ht ▸ hq⟩)
    omega
  have := hnotlt h h'
  have := hnotlt h' h
  omega

theorem rankValue_self (r : Nat) : IsRankOf (rankValue r) r where
  le_middle := by
    rw [middle]
    linarith [gap_pos r]
  middle_le s hs := by
    rw [hs, middle, rankValue_succ]
    linarith [gap_pos s]
  even h := by
    rcases h with h | ⟨s, rfl, h⟩
    · rw [middle] at h
      linarith [gap_pos r]
    · rw [middle, rankValue_succ] at h
      linarith [gap_pos s]

end IsRankOf

/-- A number is rounded to a natural number, a half to the even one. -/
structure RoundsTo (t : ℚ) (n : Nat) : Prop where
  le : (n : ℚ) - 1 / 2 ≤ t
  ge : t ≤ n + 1 / 2
  even : (t = n - 1 / 2 ∨ t = n + 1 / 2) → n % 2 = 0

theorem RoundsTo.bounds {t : ℚ} {n c : Nat} (h : RoundsTo t n)
    (hlow : c = 0 ∨ (fractionBound : ℚ) ≤ t) (hhigh : t < 2 * fractionBound) :
    (c = 0 ∨ fractionBound ≤ n) ∧ n ≤ 2 * fractionBound := by
  constructor
  · refine hlow.imp_right fun hlow => ?_
    have hn : (fractionBound : ℚ) < (n + 1 : Nat) := by
      push_cast
      linarith [h.ge]
    exact Nat.lt_succ_iff.1 (Nat.cast_lt.1 hn)
  · have hn : (n : ℚ) < (2 * fractionBound + 1 : Nat) := by
      push_cast
      linarith [h.le]
    exact Nat.lt_succ_iff.1 (Nat.cast_lt.1 hn)

/-- To round to a rank is to round to a multiple of the gap. Rounding up to the end of the binade
gives the first rank of the next one. -/
theorem isRankOf_of_roundsTo (c : Nat) {t : ℚ} {n : Nat}
    (hlow : c = 0 ∨ (fractionBound : ℚ) ≤ t) (hhigh : t < 2 * fractionBound) (h : RoundsTo t n) :
    IsRankOf (t * 2 ^ ((c : Int) - 1074)) (c * fractionBound + n) := by
  have hunit : (0 : ℚ) < 2 ^ ((c : Int) - 1074) := zpow_pos (by norm_num) _
  obtain ⟨hn', hn⟩ := h.bounds hlow hhigh
  have habove : t * 2 ^ ((c : Int) - 1074) ≤ middle (c * fractionBound + n) ∧
      (t * 2 ^ ((c : Int) - 1074) = middle (c * fractionBound + n) → t = n + 1 / 2) := by
    rcases Nat.lt_or_ge n (2 * fractionBound) with hlt | hge
    · rw [middle_eq c hn' hlt]
      exact ⟨mul_le_mul_of_nonneg_right h.ge hunit.le, mul_right_cancel₀ hunit.ne'⟩
    · have hend : t * 2 ^ ((c : Int) - 1074) < rankValue (c * fractionBound + n) := by
        rw [rankValue_eq c hn' hn, (by omega : n = 2 * fractionBound)]
        push_cast
        exact mul_lt_mul_of_pos_right hhigh hunit
      have hgap := gap_pos (c * fractionBound + n)
      rw [middle]
      exact ⟨by linarith, fun heq => by linarith⟩
  have hbelow (s : Nat) (hs : c * fractionBound + n = s + 1) :
      middle s ≤ t * 2 ^ ((c : Int) - 1074) ∧
      (t * 2 ^ ((c : Int) - 1074) = middle s → t = n - 1 / 2) := by
    by_cases hstart : 0 < c ∧ n = fractionBound
    · have hvalue : rankValue s + gap s ≤ t * 2 ^ ((c : Int) - 1074) := by
        rw [← rankValue_succ, ← hs, rankValue_eq c hn' hn, hstart.2]
        exact mul_le_mul_of_nonneg_right (hlow.resolve_left (by omega)) hunit.le
      have hgap := gap_pos s
      rw [middle]
      exact ⟨by linarith, fun heq => by linarith⟩
    · have hzero : n ≠ 0 := by
        rintro rfl
        rcases hn' with rfl | hle
        · omega
        · exact absurd hle (by decide)
      obtain ⟨m, rfl⟩ : ∃ m, n = m + 1 := ⟨n - 1, by omega⟩
      have hs : s = c * fractionBound + m := by omega
      have hm : ((m + 1 : Nat) : ℚ) - 1 / 2 = m + 1 / 2 := by
        push_cast
        ring
      rw [hs, middle_eq c (by omega) (by omega), hm]
      exact ⟨mul_le_mul_of_nonneg_right (hm ▸ h.le) hunit.le, mul_right_cancel₀ hunit.ne'⟩
  refine ⟨habove.1, fun s hs => (hbelow s hs).1, fun hhalf => ?_⟩
  rw [rank_mod_two]
  rcases hhalf with heq | ⟨s, hs, heq⟩
  · exact h.even (.inr (habove.2 heq))
  · exact h.even (.inl ((hbelow s hs).2 heq))

/-! ### Errors -/

/-- The largest relative error of a rounding. -/
def roundoff : ℚ := 1 / 9007199254740992

/-- How far above a number its rounding can be. -/
def excess : ℚ := (1 + 2 * roundoff) / (1 + roundoff)

theorem excess_pos : 0 < excess := by norm_num [excess, roundoff]

/-- What two roundings can miss of a number. -/
structure Near (p q : ℚ) : Prop where
  le : (1 - 2 * roundoff) * p ≤ q
  ge : q ≤ (1 + roundoff) ^ 2 * p

theorem Near.div {p q z : ℚ} (h : Near p q) (hz : 0 < z) : Near (p / z) (q / z) := by
  constructor
  · rw [← mul_div_assoc]
    exact div_le_div_of_nonneg_right h.le hz.le
  · rw [← mul_div_assoc]
    exact div_le_div_of_nonneg_right h.ge hz.le

theorem cast_fractionBound : (fractionBound : ℚ) = 4503599627370496 := by
  norm_num [fractionBound]

theorem gap_le_of_lt {r c : Nat} (h : r < (c + 2) * fractionBound) :
    gap r ≤ 2 ^ ((c : Int) - 1074) := by
  refine zpow_le_zpow_right₀ (by norm_num) ?_
  have hdiv : r / fractionBound < c + 2 := (Nat.div_lt_iff_lt_mul (by decide)).2 h
  rw [binade]
  omega

theorem rankValue_zero : rankValue 0 = 0 := by
  have hvalue := rankValue_eq 0 (m := 0) (.inl rfl) (by decide)
  rwa [Nat.zero_mul, Nat.cast_zero, zero_mul] at hvalue

theorem rankValue_nonneg (r : Nat) : 0 ≤ rankValue r := by
  rw [← rankValue_zero]
  exact strictMono_rankValue.monotone (Nat.zero_le r)

/-- Two gaps below a middle are more than what two roundings can miss. At the start of a binade the
gaps are half as large, but so is the number against the error. -/
theorem middle_lt_of_gaps (t : Nat) : middle t < (1 - 2 * roundoff) * middle (t + 2) := by
  have hsum : middle (t + 2) = middle t + (gap t / 2 + gap (t + 1) + gap (t + 2) / 2) := by
    rw [middle, middle, rankValue_succ (t + 1), rankValue_succ]
    ring
  have hsmall : gap (t + 2) ≤ 2 * gap t :=
    gap_le_two_mul_gap (Nat.add_le_add_left (by decide) t)
  have hmono := gap_le_gap (Nat.le_add_right t 1)
  suffices h : 2 * roundoff * middle (t + 2) < gap t / 2 + gap (t + 1) + gap (t + 2) / 2 by
    linarith
  obtain ⟨c, m, hplace, hlow, hhigh⟩ := exists_binade (t + 2)
  have hunit : (0 : ℚ) < 2 ^ ((c : Int) - 1074) := zpow_pos (by norm_num) _
  have hgap : gap (t + 2) = 2 ^ ((c : Int) - 1074) := by
    rw [hplace, gap, binade_eq c hlow hhigh]
  rw [hplace, middle_eq c hlow hhigh, ← hplace, hgap]
  rw [hgap] at hsmall
  rcases Nat.lt_or_ge m (fractionBound + 2) with hstart | hinside
  · have hm : (m : ℚ) ≤ 4503599627370497 := by
      have hm : m ≤ 4503599627370497 := by
        rw [fractionBound] at hstart
        omega
      exact_mod_cast hm
    have hfactor : 2 * roundoff * (m + 1 / 2) < 5 / 4 := by
      rw [roundoff]
      linarith
    calc 2 * roundoff * ((m + 1 / 2) * 2 ^ ((c : Int) - 1074))
        = (2 * roundoff * (m + 1 / 2)) * 2 ^ ((c : Int) - 1074) := by ring
      _ < 5 / 4 * 2 ^ ((c : Int) - 1074) := mul_lt_mul_of_pos_right hfactor hunit
      _ ≤ gap t / 2 + gap (t + 1) + 2 ^ ((c : Int) - 1074) / 2 := by linarith
  · have hm : (m : ℚ) ≤ 9007199254740991 := by
      have hm : m ≤ 9007199254740991 := by
        rw [fractionBound] at hhigh
        omega
      exact_mod_cast hm
    have hfactor : 2 * roundoff * (m + 1 / 2) < 2 := by
      rw [roundoff]
      linarith
    have ht : t = c * fractionBound + (m - 2) := by omega
    have hgap : gap t = 2 ^ ((c : Int) - 1074) := by
      rw [ht, gap, binade_eq c (by omega) (by omega)]
    calc 2 * roundoff * ((m + 1 / 2) * 2 ^ ((c : Int) - 1074))
        = (2 * roundoff * (m + 1 / 2)) * 2 ^ ((c : Int) - 1074) := by ring
      _ < 2 * 2 ^ ((c : Int) - 1074) := mul_lt_mul_of_pos_right hfactor hunit
      _ ≤ gap t / 2 + gap (t + 1) + 2 ^ ((c : Int) - 1074) / 2 := by linarith

namespace IsRankOf

variable {p q : ℚ} {r s : Nat}

theorem le_of_le_rankValue (h : IsRankOf q r) (hq : q ≤ rankValue s) : r ≤ s := by
  refine h.le_of_lt_middle ?_
  rw [middle]
  linarith [gap_pos s]

theorem le_of_rankValue_le (h : IsRankOf q r) (hq : rankValue s ≤ q) : s ≤ r := by
  cases s with
  | zero => exact Nat.zero_le r
  | succ s =>
    refine h.lt_of_middle_lt ?_
    rw [rankValue_succ] at hq
    rw [middle]
    linarith [gap_pos s]

/-- The error is half of a gap at most, on both sides. -/
theorem abs_sub_le (h : IsRankOf q r) (hq : 0 ≤ q) {c : Nat}
    (hhigh : q ≤ 2 * fractionBound * 2 ^ ((c : Int) - 1074)) :
    |rankValue r - q| ≤ 2 ^ ((c : Int) - 1074) / 2 := by
  have hunit : (0 : ℚ) < 2 ^ ((c : Int) - 1074) := zpow_pos (by norm_num) _
  rw [← rankValue_end] at hhigh
  have hr := h.le_of_le_rankValue hhigh
  rw [abs_le]
  constructor
  · rcases Nat.lt_or_ge r ((c + 2) * fractionBound) with hlt | hge
    · have hmiddle := h.le_middle
      rw [middle] at hmiddle
      linarith [gap_le_of_lt hlt]
    · rw [Nat.le_antisymm hr hge]
      linarith
  · cases r with
    | zero =>
      rw [rankValue_zero]
      linarith
    | succ s =>
      have hmiddle := h.middle_le s rfl
      rw [middle] at hmiddle
      rw [rankValue_succ]
      linarith [gap_le_of_lt (Nat.lt_of_succ_le hr)]

/-- From the least normal number on, the place in a binade has all digits. -/
theorem exists_binade_of_normal (h : IsRankOf q r) (hq : rankValue fractionBound ≤ q) :
    ∃ c m, r = c * fractionBound + m ∧ fractionBound ≤ m ∧ m < 2 * fractionBound := by
  have hr := h.le_of_rankValue_le hq
  obtain ⟨c, m, hplace, hlow, hhigh⟩ := exists_binade r
  refine ⟨c, m, hplace, ?_, hhigh⟩
  rcases hlow with rfl | hlow
  · omega
  · exact hlow

theorem le_of_normal (h : IsRankOf q r) (hq : rankValue fractionBound ≤ q) :
    q ≤ (1 + roundoff) * rankValue r := by
  obtain ⟨c, m, rfl, hlow, hhigh⟩ := h.exists_binade_of_normal hq
  have hunit : (0 : ℚ) < 2 ^ ((c : Int) - 1074) := zpow_pos (by norm_num) _
  have hm : (4503599627370496 : ℚ) ≤ m := by
    rw [← cast_fractionBound]
    exact_mod_cast hlow
  calc q ≤ (m + 1 / 2) * 2 ^ ((c : Int) - 1074) := by
        rw [← middle_eq c (.inr hlow) hhigh]
        exact h.le_middle
    _ ≤ ((1 + roundoff) * m) * 2 ^ ((c : Int) - 1074) := by
        refine mul_le_mul_of_nonneg_right ?_ hunit.le
        rw [roundoff]
        linarith
    _ = (1 + roundoff) * rankValue (c * fractionBound + m) := by
        rw [rankValue_eq c (.inr hlow) hhigh.le]
        ring

theorem ge_of_normal (h : IsRankOf q r) (hq : rankValue fractionBound ≤ q) :
    rankValue r ≤ excess * q := by
  have hpos : 0 ≤ q := (rankValue_nonneg _).trans hq
  rw [excess, div_mul_eq_mul_div, le_div_iff₀ (by norm_num [roundoff]), mul_comm]
  rcases le_total (rankValue r) q with hle | hge
  · calc (1 + roundoff) * rankValue r ≤ (1 + roundoff) * q :=
          mul_le_mul_of_nonneg_left hle (by norm_num [roundoff])
      _ ≤ (1 + 2 * roundoff) * q := mul_le_mul_of_nonneg_right (by norm_num [roundoff]) hpos
  · -- the middle below is in a normal binade as well
    rcases hge.eq_or_lt with heq | hlt
    · rw [heq]
      exact mul_le_mul_of_nonneg_right (by norm_num [roundoff]) (rankValue_nonneg r)
    · have hr : fractionBound < r := strictMono_rankValue.lt_iff_lt.1 (hq.trans_lt hlt)
      obtain ⟨s, rfl⟩ : ∃ s, r = s + 1 := ⟨r - 1, by omega⟩
      obtain ⟨c, m, rfl, hlow, hhigh⟩ :=
        (rankValue_self s).exists_binade_of_normal (strictMono_rankValue.monotone (by omega))
      have hunit : (0 : ℚ) < 2 ^ ((c : Int) - 1074) := zpow_pos (by norm_num) _
      have hm : (4503599627370496 : ℚ) ≤ m := by
        rw [← cast_fractionBound]
        exact_mod_cast hlow
      have hmiddle := h.middle_le _ rfl
      rw [middle_eq c (.inr hlow) hhigh] at hmiddle
      calc (1 + roundoff) * rankValue (c * fractionBound + m + 1)
          = ((1 + roundoff) * (m + 1)) * 2 ^ ((c : Int) - 1074) := by
            rw [Nat.add_assoc, rankValue_eq c (by omega) hhigh]
            push_cast
            ring
        _ ≤ ((1 + 2 * roundoff) * (m + 1 / 2)) * 2 ^ ((c : Int) - 1074) := by
            refine mul_le_mul_of_nonneg_right ?_ hunit.le
            rw [roundoff]
            linarith
        _ = (1 + 2 * roundoff) * ((m + 1 / 2) * 2 ^ ((c : Int) - 1074)) := by ring
        _ ≤ (1 + 2 * roundoff) * q :=
            mul_le_mul_of_nonneg_left hmiddle (by norm_num [roundoff])

theorem le_add_two (hp : IsRankOf p r) (hq : IsRankOf q s) (h : q ≤ (1 + roundoff) ^ 2 * p) :
    s ≤ r + 2 := by
  refine hq.le_of_lt_middle ?_
  have hnext : middle r + 2 * gap r ≤ middle (r + 2) := by
    rw [middle, middle, rankValue_succ (r + 1), rankValue_succ]
    linarith [gap_le_gap (Nat.le_add_right r 1), gap_le_gap (Nat.le_add_right r 2)]
  obtain ⟨c, m, rfl, hlow, hhigh⟩ := exists_binade r
  have hunit : (0 : ℚ) < 2 ^ ((c : Int) - 1074) := zpow_pos (by norm_num) _
  have hm : (m : ℚ) ≤ 9007199254740991 := by
    have hm : m ≤ 9007199254740991 := by
      rw [fractionBound] at hhigh
      omega
    exact_mod_cast hm
  rw [gap, binade_eq c hlow hhigh, middle_eq c hlow hhigh] at hnext
  calc q ≤ (1 + roundoff) ^ 2 * p := h
    _ ≤ (1 + roundoff) ^ 2 * ((m + 1 / 2) * 2 ^ ((c : Int) - 1074)) := by
        rw [← middle_eq c hlow hhigh]
        exact mul_le_mul_of_nonneg_left hp.le_middle (by norm_num [roundoff])
    _ = ((1 + roundoff) ^ 2 * (m + 1 / 2)) * 2 ^ ((c : Int) - 1074) := by ring
    _ < (m + 1 / 2 + 2) * 2 ^ ((c : Int) - 1074) := by
        refine mul_lt_mul_of_pos_right ?_ hunit
        rw [roundoff]
        linarith
    _ ≤ middle (c * fractionBound + m + 2) := by linarith

theorem near (hp : IsRankOf p r) (hq : IsRankOf q s) (h : Near p q) : r ≤ s + 2 ∧ s ≤ r + 2 := by
  refine ⟨?_, hp.le_add_two hq h.ge⟩
  rcases Nat.lt_or_ge r 3 with hsmall | hlarge
  · omega
  · obtain ⟨t, rfl⟩ : ∃ t, r = t + 3 := ⟨r - 3, by omega⟩
    have hmiddle : middle t < q :=
      calc middle t < (1 - 2 * roundoff) * middle (t + 2) := middle_lt_of_gaps t
        _ ≤ (1 - 2 * roundoff) * p :=
            mul_le_mul_of_nonneg_left (hp.middle_le (t + 2) rfl) (by norm_num [roundoff])
        _ ≤ q := h.le
    have := hq.lt_of_middle_lt hmiddle
    omega

end IsRankOf

end Binary64

end RegisterMachine
