import RegisterMachine.Proofs.Rounding

/-!
# Significands are scaled with two roundings

A decimal is read by rounding its digits to a binary64 number and multiplying or dividing this by a
rounded power of ten. Powers below the least one take two divisions, the first one by the power
with the exponent 308. All three ways give a number whose rank is at most two places from that of
the decimal (`Json.Quantity.exists_isScaled`). With two roundings this is what the bound on the
relative error of a rounding says. The third rounding has room because the power of ten with the
exponent 308 is nearly exact, and because its leading digits are such that either the digits or the
quotient has an error far below the bound (`near_div_pow`).

Digits that fit the significand and powers of ten that are exact are read without any error but that
of the result.
-/

namespace RegisterMachine

-- A power of natural numbers means the same beside any other notion of powers.
attribute [local instance (2000)] instPowNat

namespace Binary64

/-! ### Exact numbers -/

theorem exists_rankValue_natCast {n : Nat} (hn : n ≤ 2 ^ 53) : ∃ r, rankValue r = n := by
  obtain ⟨r, hr⟩ := exists_rankValue_eq 1074 (m := n) hn
  refine ⟨r, hr.trans ?_⟩
  norm_num

theorem exists_rankValue_ten_pow {k : Nat} (hk : k ≤ 22) : ∃ r, rankValue r = 10 ^ k := by
  have hfive : 5 ^ k ≤ 2 * fractionBound := (Nat.pow_le_pow_right (by decide) hk).trans (by decide)
  obtain ⟨r, hr⟩ := exists_rankValue_eq (1074 + k) hfive
  refine ⟨r, hr.trans ?_⟩
  have hexponent : ((1074 + k : Nat) : Int) - 1074 = (k : Int) := by
    push_cast
    ring
  rw [hexponent, zpow_natCast]
  push_cast
  rw [← mul_pow]
  norm_num

theorem IsRankOf.rankValue_eq_of {q : ℚ} {r : Nat} (h : IsRankOf q r) (hq : ∃ s, rankValue s = q) :
    rankValue r = q := by
  obtain ⟨s, rfl⟩ := hq
  rw [h.unique (IsRankOf.rankValue_self s)]

theorem rankValue_fractionBound : rankValue fractionBound = 2 ^ (-1022 : Int) := by
  have hvalue := rankValue_eq 0 (m := fractionBound) (.inl rfl) (by decide)
  rw [Nat.zero_mul, Nat.zero_add] at hvalue
  have hbound : (fractionBound : ℚ) = 2 ^ (52 : Int) := by norm_num [fractionBound]
  rw [hvalue, hbound, ← zpow_add₀ (by norm_num)]
  rfl

theorem rankValue_fractionBound_le : rankValue fractionBound ≤ 1 := by
  rw [rankValue_fractionBound]
  exact zpow_le_one_of_nonpos₀ (by norm_num) (by decide)

theorem two_mul_fractionBound_mul (e : Int) : (2 * fractionBound * 2 ^ e : ℚ) = 2 ^ (e + 53) := by
  have hbound : (2 * fractionBound : ℚ) = 2 ^ (53 : Int) := by norm_num [fractionBound]
  rw [hbound, ← zpow_add₀ (by norm_num), add_comm]

/-! ### The errors of two roundings -/

theorem div_le_mul_div {a b x y z w : ℚ} (hb : 0 < b) (hy : 0 < y) (hzx : 0 ≤ z * x)
    (ha : a ≤ z * x) (hyb : y ≤ w * b) : a / b ≤ z * w * (x / y) := by
  have hone : 1 ≤ w * b / y := (one_le_div hy).2 hyb
  rw [div_le_iff₀ hb]
  calc a ≤ z * x := ha
    _ ≤ z * x * (w * b / y) := le_mul_of_one_le_right hzx hone
    _ = z * w * (x / y) * b := by ring

section

variable {a b : ℚ} {f p : Nat}

theorem rankValue_pos_of_one_le (hf : IsRankOf a f) (ha : 1 ≤ a) : 0 < rankValue f := by
  have hle := hf.le_of_normal (rankValue_fractionBound_le.trans ha)
  have hfactor : 0 < 1 + roundoff := by norm_num [roundoff]
  exact pos_of_mul_pos_right (lt_of_lt_of_le (by linarith) hle) hfactor.le

theorem near_mul (hf : IsRankOf a f) (ha : 1 ≤ a) (hp : IsRankOf b p) (hb : 1 ≤ b) :
    Near (a * b) (rankValue f * rankValue p) := by
  have ha' := rankValue_fractionBound_le.trans ha
  have hb' := rankValue_fractionBound_le.trans hb
  have hpos : 0 < a * b := by positivity
  have hrounded : 0 < rankValue f * rankValue p :=
    mul_pos (rankValue_pos_of_one_le hf ha) (rankValue_pos_of_one_le hp hb)
  have hle : a * b ≤ (1 + roundoff) ^ 2 * (rankValue f * rankValue p) :=
    calc a * b ≤ (1 + roundoff) * rankValue f * ((1 + roundoff) * rankValue p) :=
          mul_le_mul (hf.le_of_normal ha') (hp.le_of_normal hb') (by linarith)
            (mul_nonneg (by norm_num [roundoff]) (rankValue_nonneg f))
      _ = (1 + roundoff) ^ 2 * (rankValue f * rankValue p) := by ring
  have hge : rankValue f * rankValue p ≤ excess ^ 2 * (a * b) :=
    calc rankValue f * rankValue p ≤ excess * a * (excess * b) :=
          mul_le_mul (hf.ge_of_normal ha') (hp.ge_of_normal hb') (rankValue_nonneg p)
            (mul_nonneg excess_pos.le (by linarith))
      _ = excess ^ 2 * (a * b) := by ring
  rw [roundoff] at hle
  rw [excess, roundoff] at hge
  constructor
  · rw [roundoff]
    linarith
  · rw [roundoff]
    linarith

theorem near_div (hf : IsRankOf a f) (ha : 1 ≤ a) (hp : IsRankOf b p) (hb : 1 ≤ b) :
    Near (a / b) (rankValue f / rankValue p) := by
  have ha' := rankValue_fractionBound_le.trans ha
  have hb' := rankValue_fractionBound_le.trans hb
  have hf' := rankValue_pos_of_one_le hf ha
  have hp' := rankValue_pos_of_one_le hp hb
  have hpos : 0 < a / b := by positivity
  have hrounded : 0 < rankValue f / rankValue p := div_pos hf' hp'
  have hle : a / b ≤ (1 + roundoff) * excess * (rankValue f / rankValue p) :=
    div_le_mul_div (by linarith) hp' (mul_nonneg (by norm_num [roundoff]) hf'.le)
      (hf.le_of_normal ha') (hp.ge_of_normal hb')
  have hge : rankValue f / rankValue p ≤ excess * (1 + roundoff) * (a / b) :=
    div_le_mul_div hp' (by linarith) (mul_nonneg excess_pos.le (by linarith))
      (hf.ge_of_normal ha') (hp.le_of_normal hb')
  rw [excess, roundoff] at hle hge
  constructor
  · rw [roundoff]
    linarith
  · rw [roundoff]
    linarith

end

/-! ### The power of ten that is divided out first -/

/-- The significand of the power of ten with the exponent 308, which is rounded up. -/
def leadingSignificand : Nat := 5010420900022432

def leadingPower : ℚ := leadingSignificand * 2 ^ (971 : Nat)

theorem leadingPower_pos : 0 < leadingPower := by
  rw [leadingPower, leadingSignificand]
  positivity

theorem pow_le_leadingPower : 10 ^ 308 ≤ leadingPower := by
  have hle : 10 ^ 308 ≤ leadingSignificand * 2 ^ 971 := by decide +kernel
  rw [leadingPower]
  exact_mod_cast hle

/-- The error of the power is a tenth of the bound on errors. -/
theorem leadingPower_le : leadingPower ≤ (1 + roundoff / 10) * 10 ^ 308 := by
  have hle : 10 * 2 ^ 53 * (leadingSignificand * 2 ^ 971) ≤ (10 * 2 ^ 53 + 1) * 10 ^ 308 := by
    decide +kernel
  have hle : (10 * 2 ^ 53 * (leadingSignificand * 2 ^ 971) : ℚ) ≤ (10 * 2 ^ 53 + 1) * 10 ^ 308 := by
    exact_mod_cast hle
  rw [leadingPower, roundoff]
  generalize (2 : ℚ) ^ 971 = unit at hle ⊢
  generalize (10 : ℚ) ^ 308 = power at hle ⊢
  linarith

theorem rankValue_of_isRankOf_pow {r : Nat} (h : IsRankOf (10 ^ 308) r) :
    rankValue r = leadingPower := by
  have hunit : (0 : ℚ) < 2 ^ 971 := pow_pos (by norm_num) _
  have hlow : (2 * leadingSignificand : ℚ) * 2 ^ 971 < 2 * 10 ^ 308 + 2 ^ 971 := by
    have hlow : 2 * leadingSignificand * 2 ^ 971 < 2 * 10 ^ 308 + 2 ^ 971 := by decide +kernel
    exact_mod_cast hlow
  have hhigh : 2 * 10 ^ 308 < (2 * leadingSignificand + 1 : ℚ) * 2 ^ 971 := by
    have hhigh : 2 * 10 ^ 308 < (2 * leadingSignificand + 1) * 2 ^ 971 := by decide +kernel
    exact_mod_cast hhigh
  have hexponent : ((2045 : Nat) : Int) - 1074 = ((971 : Nat) : Int) := rfl
  have hlow : (leadingSignificand : ℚ) - 1 / 2 < 10 ^ 308 / 2 ^ 971 := by
    rw [lt_div_iff₀ hunit]
    generalize (2 : ℚ) ^ 971 = unit at hlow ⊢
    generalize (10 : ℚ) ^ 308 = power at hlow ⊢
    linarith
  have hhigh : (10 : ℚ) ^ 308 / 2 ^ 971 < leadingSignificand + 1 / 2 := by
    rw [div_lt_iff₀ hunit]
    generalize (2 : ℚ) ^ 971 = unit at hhigh ⊢
    generalize (10 : ℚ) ^ 308 = power at hhigh ⊢
    linarith
  have hround : RoundsTo (10 ^ 308 / 2 ^ 971) leadingSignificand :=
    ⟨hlow.le, hhigh.le, fun hhalf => (hhalf.elim hlow.ne' hhigh.ne).elim⟩
  have hbounds : (fractionBound : ℚ) + 1 ≤ leadingSignificand ∧
      (leadingSignificand : ℚ) + 1 ≤ 2 * fractionBound := by
    norm_num [fractionBound, leadingSignificand]
  have hrank := isRankOf_of_roundsTo 2045
    (.inr (le_trans (by linarith only [hbounds.1]) hlow.le))
    (hhigh.trans_le (by linarith only [hbounds.2])) hround
  rw [hexponent, zpow_natCast, div_mul_cancel₀ _ hunit.ne'] at hrank
  rw [h.unique hrank, rankValue_eq 2045 (.inr (by decide)) (by decide), hexponent, zpow_natCast,
    leadingPower]

section

variable {s : ℚ} {f g : Nat}

theorem zpow_mul_leadingPower (e : Int) :
    2 ^ e * leadingPower = leadingSignificand * 2 ^ (e + 971) := by
  rw [leadingPower, mul_left_comm, ← zpow_natCast, ← zpow_add₀ (by norm_num)]
  rfl

theorem normal_le_div (hf : 3 ≤ rankValue f) :
    rankValue fractionBound ≤ rankValue f / leadingPower := by
  rw [rankValue_fractionBound, le_div_iff₀ leadingPower_pos, zpow_mul_leadingPower]
  norm_num [leadingSignificand]
  linarith

theorem rank_pos_of_div (hf : 1 ≤ rankValue f) (hg : IsRankOf (rankValue f / leadingPower) g) :
    0 < g := by
  have hleast : rankValue 1 = 2 ^ (-1074 : Int) := by
    rw [rankValue_succ, rankValue_zero, zero_add]
    rfl
  have hle : rankValue 1 ≤ rankValue f / leadingPower := by
    rw [hleast, le_div_iff₀ leadingPower_pos, zpow_mul_leadingPower]
    norm_num [leadingSignificand]
    linarith
  exact hg.le_of_rankValue_le hle

/-- If the digits of a number are above those of the power, its own rounding has room. -/
theorem le_of_leading_le {c m : Nat} (hf : IsRankOf s (c * fractionBound + m))
    (hm : leadingSignificand ≤ m) (hhigh : m < 2 * fractionBound) :
    s ≤ (1 + 9 / 10 * roundoff) * rankValue (c * fractionBound + m) := by
  have hlow : fractionBound ≤ m := le_trans (by decide) hm
  have hm' : (5010420900022432 : ℚ) ≤ m := by exact_mod_cast hm
  calc s ≤ (m + 1 / 2) * 2 ^ ((c : Int) - 1074) := by
        rw [← middle_eq c (.inr hlow) hhigh]
        exact hf.le_middle
    _ ≤ ((1 + 9 / 10 * roundoff) * m) * 2 ^ ((c : Int) - 1074) := by
        refine mul_le_mul_of_nonneg_right ?_ (zpow_pos (by norm_num) _).le
        rw [roundoff]
        linarith
    _ = (1 + 9 / 10 * roundoff) * rankValue (c * fractionBound + m) := by
        rw [rankValue_eq c (.inr hlow) hhigh.le]
        ring

/-- A number from three on whose digits are below those of the power has an exponent above that of
the power. -/
theorem exists_eq_add_of_lt_leading {c m : Nat} (hs : 3 ≤ rankValue (c * fractionBound + m))
    (hlow : fractionBound ≤ m) (hm : m < leadingSignificand) : ∃ d, c = 1024 + d := by
  refine Nat.exists_eq_add_of_le ?_
  by_contra hc
  have hm' : (m : ℚ) ≤ 5010420900022432 := by exact_mod_cast hm.le
  have hunit : (2 : ℚ) ^ ((c : Int) - 1074) ≤ 2 ^ (-51 : Int) :=
    zpow_le_zpow_right₀ (by norm_num) (by omega)
  have hle : rankValue (c * fractionBound + m) ≤ 5010420900022432 * 2 ^ (-51 : Int) := by
    rw [rankValue_eq c (.inr hlow) (hm.le.trans (by decide))]
    exact mul_le_mul hm' hunit (zpow_pos (by norm_num) _).le (by norm_num)
  norm_num at hle
  linarith

/-- The quotient by the power, in places of the binade that it is in. -/
theorem div_leadingPower (d : Nat) {m : Nat} (hlow : fractionBound ≤ m)
    (hhigh : m < 2 * fractionBound) :
    rankValue ((1024 + d) * fractionBound + m) / leadingPower =
      m * (2 * fractionBound * 2 ^ ((d : Int) - 1074)) / leadingSignificand := by
  have hunit : (2 : ℚ) ^ (((1024 + d : Nat) : Int) - 1074) =
      2 ^ (971 : Nat) * (2 * fractionBound * 2 ^ ((d : Int) - 1074)) := by
    rw [two_mul_fractionBound_mul, ← zpow_natCast, ← zpow_add₀ (by norm_num)]
    congr 1
    push_cast
    ring
  have hpow : (0 : ℚ) < 2 ^ 971 := pow_pos (by norm_num) _
  rw [rankValue_eq _ (.inr hlow) hhigh.le, hunit, leadingPower, mul_left_comm,
    mul_comm _ (2 ^ 971 : ℚ), mul_div_mul_left _ _ hpow.ne']

/-- Otherwise the quotient is at the end of its binade, and its rounding has room. -/
theorem le_of_lt_leading {c m : Nat} (hs : 3 ≤ rankValue (c * fractionBound + m))
    (hlow : fractionBound ≤ m) (hm : m < leadingSignificand)
    (hg : IsRankOf (rankValue (c * fractionBound + m) / leadingPower) g) :
    (1 - 6 / 10 * roundoff) * (rankValue (c * fractionBound + m) / leadingPower) ≤ rankValue g := by
  obtain ⟨d, rfl⟩ := exists_eq_add_of_lt_leading hs hlow hm
  have hhigh : m < 2 * fractionBound := hm.trans (by decide)
  have hm' : (m : ℚ) ≤ 5010420900022432 := by exact_mod_cast hm.le
  have hlow' : (4503599627370496 : ℚ) ≤ m := by
    rw [← cast_fractionBound]
    exact_mod_cast hlow
  have hlead : (leadingSignificand : ℚ) = 5010420900022432 := by norm_num [leadingSignificand]
  have herror := hg.abs_sub_le (c := d) (div_nonneg (rankValue_nonneg _) leadingPower_pos.le)
  rw [div_leadingPower d hlow hhigh, cast_fractionBound, hlead] at herror ⊢
  have hunit : (0 : ℚ) < 2 ^ ((d : Int) - 1074) := zpow_pos (by norm_num) _
  generalize (2 : ℚ) ^ ((d : Int) - 1074) = unit at herror hunit ⊢
  have hend : m * unit ≤ 5010420900022432 * unit := mul_le_mul_of_nonneg_right hm' hunit.le
  have hstart : 4503599627370496 * unit ≤ m * unit := mul_le_mul_of_nonneg_right hlow' hunit.le
  have herror := (abs_le.1 (herror (by linarith))).1
  rw [roundoff]
  linarith

/-- A number is divided by the power as if there were two roundings. -/
theorem near_div_pow (hf : IsRankOf s f) (hs : 1 ≤ s) (hs' : 3 ≤ rankValue f)
    (hg : IsRankOf (rankValue f / leadingPower) g) : Near (s / 10 ^ 308) (rankValue g) := by
  have hnormal := rankValue_fractionBound_le.trans hs
  have hquotient := normal_le_div hs'
  have hpos : 0 < s / 10 ^ 308 := by positivity
  have hpos' : 0 < rankValue f / leadingPower := div_pos (by linarith) leadingPower_pos
  constructor
  · obtain ⟨c, m, rfl, hlow, hhigh⟩ := (IsRankOf.rankValue_self f).exists_binade_of_normal
      (rankValue_fractionBound_le.trans (by linarith))
    -- the digits decide which of the two roundings has room
    rcases Nat.lt_or_ge m leadingSignificand with hlt | hge
    · have hroom := le_of_lt_leading hs' hlow hlt hg
      have hle := div_le_mul_div (by positivity) leadingPower_pos
        (mul_nonneg (by norm_num [roundoff]) (rankValue_nonneg _)) (hf.le_of_normal hnormal)
        leadingPower_le
      rw [roundoff] at *
      generalize (10 : ℚ) ^ 308 = power at *
      linarith
    · have hroom := hg.le_of_normal hquotient
      have hle := div_le_mul_div (by positivity) leadingPower_pos
        (mul_nonneg (by norm_num [roundoff]) (rankValue_nonneg _)) (le_of_leading_le hf hge hhigh)
        leadingPower_le
      rw [roundoff] at *
      generalize (10 : ℚ) ^ 308 = power at *
      linarith
  · have hroom := hg.ge_of_normal hquotient
    have hle := div_le_mul_div leadingPower_pos (by positivity)
      (mul_nonneg excess_pos.le (by linarith)) (hf.ge_of_normal hnormal)
      ((one_mul leadingPower).symm ▸ pow_le_leadingPower)
    rw [excess, roundoff] at *
    generalize (10 : ℚ) ^ 308 = power at *
    linarith

end

/-! ### Numbers that are too small for relative errors -/

theorem two_div_pow_le : 2 / 10 ^ 308 ≤ (2 * fractionBound * 2 ^ (-1074 : Int) : ℚ) := by
  have hle : (2 : ℚ) ^ 1022 ≤ 10 ^ 308 := by
    have hle : 2 ^ 1022 ≤ 10 ^ 308 := by decide +kernel
    exact_mod_cast hle
  have hpow : (2 : ℚ) ^ (-1074 + 53 : Int) * 2 ^ 1022 = 2 := by
    rw [← zpow_natCast, ← zpow_add₀ (by norm_num)]
    norm_num
  rw [two_mul_fractionBound_mul, div_le_iff₀ (pow_pos (by norm_num) _)]
  calc 2 = (2 : ℚ) ^ (-1074 + 53 : Int) * 2 ^ 1022 := hpow.symm
    _ ≤ 2 ^ (-1074 + 53 : Int) * 10 ^ 308 :=
        mul_le_mul_of_nonneg_left hle (zpow_pos (by norm_num) _).le

/-- One and two are divided by the power with an error below the least number. -/
theorem abs_sub_le_of_small {q : ℚ} {f g : Nat} (hf : rankValue f = q) (hq : 0 < q) (hq' : q ≤ 2)
    (hg : IsRankOf (rankValue f / leadingPower) g) :
    |rankValue g - q / 10 ^ 308| ≤ 2 ^ (-1074 : Int) := by
  have hpow : (0 : ℚ) < 10 ^ 308 := pow_pos (by norm_num) _
  have hquotient : q / leadingPower ≤ q / 10 ^ 308 :=
    div_le_div_of_nonneg_left hq.le hpow pow_le_leadingPower
  have hquotient' : q / 10 ^ 308 ≤ (1 + roundoff / 10) * (q / leadingPower) := by
    have hle := div_le_mul_div (z := 1) (a := q) (x := q) hpow leadingPower_pos (by linarith)
      (by linarith) leadingPower_le
    rwa [one_mul] at hle
  have htwo : q / 10 ^ 308 ≤ 2 * fractionBound * 2 ^ (-1074 : Int) :=
    (div_le_div_of_nonneg_right hq' hpow.le).trans two_div_pow_le
  have hzero : ((0 : Nat) : Int) - 1074 = -1074 := rfl
  have herror := hg.abs_sub_le (c := 0) (div_nonneg (rankValue_nonneg _) leadingPower_pos.le)
  rw [hzero, hf] at herror
  obtain ⟨hlow, hhigh⟩ := abs_le.1 (herror (hquotient.trans htwo))
  rw [cast_fractionBound] at htwo
  rw [roundoff] at hquotient'
  rw [abs_le]
  generalize (10 : ℚ) ^ 308 = power at *
  constructor
  · linarith
  · linarith

theorem IsRankOf.le_add_two_of_abs {p q : ℚ} {r s : Nat} (hp : IsRankOf p r) (hq : IsRankOf q s)
    (h : |q - p| ≤ 2 ^ (-1074 : Int)) : s ≤ r + 2 := by
  refine hq.le_of_lt_middle ?_
  have hnext : middle r + gap r ≤ middle (r + 1) := by
    rw [middle, middle, rankValue_succ]
    linarith [gap_le_gap (Nat.le_add_right r 1)]
  have hlast : middle (r + 1) < middle (r + 2) := strictMono_middle (Nat.lt_succ_self _)
  linarith [(abs_le.1 h).2, hp.le_middle, le_gap r]

/-! ### Ranks of both factors -/

theorem exists_rank_of_bounds {q : ℚ} {x : Float} (hq : 1 ≤ q) (hq' : q ≤ 10 ^ 308)
    (h : ∃ r, IsRankOf q r ∧ x = ofRank r) :
    ∃ r, IsRankOf q r ∧ x = ofRank r ∧ 0 < r ∧ r < infinityRank := by
  obtain ⟨r, hr, hx⟩ := h
  refine ⟨r, hr, hx, ?_, ?_⟩
  · have hle := hr.le_of_rankValue_le (rankValue_fractionBound_le.trans hq)
    exact Nat.lt_of_lt_of_le (by decide) hle
  · have hvalue : rankValue (2045 * fractionBound + leadingSignificand) = leadingPower := by
      rw [rankValue_eq 2045 (.inr (by decide)) (by decide)]
      rfl
    exact Nat.lt_of_le_of_lt (hr.le_of_le_rankValue (hq'.trans (hvalue ▸ pow_le_leadingPower)))
      (by decide)

theorem isFinite_ofRank {r : Nat} (h : r < infinityRank) : isFinite (ofRank r) = true := by
  have hfield : r / fractionBound < 2047 :=
    (Nat.div_lt_iff_lt_mul (by decide)).2 (h.trans_le (by decide))
  rw [isFinite, bne_iff_ne, exponentField, toNat_toBits_ofRank, Nat.min_eq_left h.le,
    Nat.mod_eq_of_lt (hfield.trans (by decide))]
  exact hfield.ne

theorem ofRank_beq_zero {r : Nat} (hpos : 0 < r) (hfinite : r < infinityRank) :
    (ofRank r == 0) = false := by
  obtain ⟨m, e, hm, hunpack, -⟩ := exists_unpack_ofRank hpos hfinite
  change Float.Model.UnpackedFloat.beq (ofRank r).toModel.unpack (0 : Float).toModel.unpack = false
  rw [hunpack]
  rfl

end Binary64

namespace Json.Quantity

open Binary64

variable {x : Float} {k : Nat}

theorem scale?_natCast (hk : k ≤ 308) (hfinite : isFinite (x * powerOfTen k) = true) :
    scale? x k = some (x * powerOfTen k) := by
  rw [scale?, if_pos (by omega), if_pos (by omega), Int.natAbs_natCast]
  exact if_pos hfinite

theorem scale?_neg (hk : 0 < k) (hk' : k ≤ 308) :
    scale? x (-(k : Int)) = some (x / powerOfTen k) := by
  rw [scale?, if_pos (by omega), if_neg (by omega), Int.natAbs_neg, Int.natAbs_natCast]

theorem scale?_below (hk : 0 < k) (hx : (x == 0) = false) :
    scale? x (-((308 + k : Nat) : Int)) = scale? (x / powerOfTen 308) (-(k : Int)) := by
  have hrest : -((308 + k : Nat) : Int) + 308 = -(k : Int) := by
    push_cast
    ring
  rw [scale?, if_neg (by omega), hx, if_neg Bool.false_ne_true, if_neg (by omega), hrest]

/-- What is known of a number that is scaled, whose exact value has the rank `r`. -/
structure IsScaled (s : Nat) (k : Int) (r t : Nat) : Prop where
  le : r ≤ t + 2
  ge : t ≤ r + 2
  /-- nothing is lost of small digits and small powers -/
  exact : s ≤ 2 ^ 53 → k.natAbs ≤ 22 → t = r
  eq_some : t < infinityRank → scale? (rounded s) k = some (ofRank t)

variable {s r : Nat}

theorem exists_rank_rounded (hs : 0 < s) (hs' : s ≤ 10 ^ 17) :
    ∃ f, IsRankOf s f ∧ rounded s = ofRank f ∧ 0 < f ∧ f < infinityRank := by
  have hone : (1 : ℚ) ≤ s := by exact_mod_cast hs
  have hlarge : (s : ℚ) ≤ 10 ^ 308 := by
    have hle : (s : ℚ) ≤ 10 ^ 17 := by exact_mod_cast hs'
    exact hle.trans (pow_le_pow_right₀ (by norm_num) (by norm_num))
  exact exists_rank_of_bounds hone hlarge
    (exists_rank_toFloat (hs'.trans_lt (by decide : 10 ^ 17 < 2 ^ 64)))

theorem exists_rank_power (hk : k ≤ 308) :
    ∃ p, IsRankOf (10 ^ k) p ∧ powerOfTen k = ofRank p ∧ 0 < p ∧ p < infinityRank :=
  exists_rank_of_bounds (one_le_pow₀ (by norm_num)) (pow_le_pow_right₀ (by norm_num) hk)
    (exists_rank_powerOfTen hk)

theorem exists_isScaled_natCast (hs : 0 < s) (hs' : s ≤ 10 ^ 17) (hk : k ≤ 308)
    (hr : IsRankOf (s * 10 ^ (k : Int)) r) : ∃ t, IsScaled s k r t := by
  obtain ⟨f, hf, hrounded, hf', hf''⟩ := exists_rank_rounded hs hs'
  obtain ⟨p, hp, hpower, hp', hp''⟩ := exists_rank_power hk
  obtain ⟨t, ht, hproduct⟩ := exists_rank_mul hf' hf'' hp' hp''
  rw [zpow_natCast] at hr
  have hnear := near_mul hf (by exact_mod_cast hs) hp (one_le_pow₀ (by norm_num))
  obtain ⟨hle, hge⟩ := hr.near ht hnear
  refine ⟨t, hle, hge, fun hsmall hsmall' => ?_, fun hfinite => ?_⟩
  · rw [hf.rankValue_eq_of (exists_rankValue_natCast hsmall),
      hp.rankValue_eq_of (exists_rankValue_ten_pow (by omega))] at ht
    exact ht.unique hr
  · have hfinite : isFinite (rounded s * powerOfTen k) = true := by
      rw [hrounded, hpower, hproduct]
      exact isFinite_ofRank hfinite
    rw [scale?_natCast hk hfinite, hrounded, hpower, hproduct]

theorem exists_isScaled_neg (hs : 0 < s) (hs' : s ≤ 10 ^ 17) (hk : 0 < k) (hk' : k ≤ 308)
    (hr : IsRankOf (s * 10 ^ (-(k : Int))) r) : ∃ t, IsScaled s (-(k : Int)) r t := by
  obtain ⟨f, hf, hrounded, hf', hf''⟩ := exists_rank_rounded hs hs'
  obtain ⟨p, hp, hpower, hp', hp''⟩ := exists_rank_power hk'
  obtain ⟨t, ht, hquotient⟩ := exists_rank_div hf' hf'' hp' hp''
  rw [zpow_neg, zpow_natCast, ← div_eq_mul_inv] at hr
  have hnear := near_div hf (by exact_mod_cast hs) hp (one_le_pow₀ (by norm_num))
  obtain ⟨hle, hge⟩ := hr.near ht hnear
  refine ⟨t, hle, hge, fun hsmall hsmall' => ?_, fun _ => ?_⟩
  · rw [hf.rankValue_eq_of (exists_rankValue_natCast hsmall),
      hp.rankValue_eq_of (exists_rankValue_ten_pow (by omega))] at ht
    exact ht.unique hr
  · rw [scale?_neg hk hk', hrounded, hpower, hquotient]

/-- The division by the power with the exponent 308 misses what two roundings can miss, or less than
the least number. -/
theorem exists_rank_first (hs : 0 < s) (hs' : s ≤ 10 ^ 17) :
    ∃ g, rounded s / powerOfTen 308 = ofRank g ∧ 0 < g ∧ g < infinityRank ∧
      (Near (s / 10 ^ 308) (rankValue g) ∨
        |rankValue g - s / 10 ^ 308| ≤ 2 ^ (-1074 : Int)) := by
  obtain ⟨f, hf, hrounded, hf', hf''⟩ := exists_rank_rounded hs hs'
  obtain ⟨p, hp, hpower, hp', hp''⟩ := exists_rank_power (le_refl 308)
  obtain ⟨g, hg, hquotient⟩ := exists_rank_div hf' hf'' hp' hp''
  rw [rankValue_of_isRankOf_pow hp] at hg
  have hone : (1 : ℚ) ≤ s := by exact_mod_cast hs
  have hle {n : Nat} (hn : n ≤ s) (hn' : n ≤ 2 ^ 53) : (n : ℚ) ≤ rankValue f := by
    obtain ⟨r', hr'⟩ := exists_rankValue_natCast hn'
    rw [← hr']
    refine strictMono_rankValue.monotone (hf.le_of_rankValue_le ?_)
    rw [hr']
    exact_mod_cast hn
  have hfpos : 1 ≤ rankValue f := by exact_mod_cast hle hs (by decide)
  refine ⟨g, by rw [hrounded, hpower, hquotient], rank_pos_of_div hfpos hg, ?_, ?_⟩
  · refine (hg.le_of_le_rankValue (div_le_self (by linarith) ?_)).trans_lt hf''
    exact (one_le_pow₀ (by norm_num)).trans pow_le_leadingPower
  · rcases Nat.lt_or_ge 2 s with hlarge | hsmall
    · exact .inl (near_div_pow hf hone (by exact_mod_cast hle hlarge (by decide)) hg)
    · have hexact := hf.rankValue_eq_of (exists_rankValue_natCast (hsmall.trans (by decide)))
      exact .inr (abs_sub_le_of_small hexact (by linarith) (by exact_mod_cast hsmall) hg)

/-- Dividing by a power of ten that is too large, in two steps. The second one is a power that is
exact. -/
theorem exists_isScaled_below (hs : 0 < s) (hs' : s ≤ 10 ^ 17) (hk : 0 < k) (hk' : k ≤ 22)
    (hr : IsRankOf (s * 10 ^ (-((308 + k : Nat) : Int))) r) :
    ∃ t, IsScaled s (-((308 + k : Nat) : Int)) r t := by
  obtain ⟨f, -, hrounded, hf, hf'⟩ := exists_rank_rounded hs hs'
  obtain ⟨g, hfirst, hgpos, hgfinite, herror⟩ := exists_rank_first hs hs'
  obtain ⟨p, hp, hpower, hppos, hpfinite⟩ := exists_rank_power (hk'.trans (by decide))
  obtain ⟨t, ht, hsecond⟩ := exists_rank_div hgpos hgfinite hppos hpfinite
  rw [hp.rankValue_eq_of (exists_rankValue_ten_pow hk')] at ht
  have hpow : (0 : ℚ) < 10 ^ k := by positivity
  have hvalue : (s : ℚ) * 10 ^ (-((308 + k : Nat) : Int)) = s / 10 ^ 308 / 10 ^ k := by
    rw [zpow_neg, zpow_natCast, pow_add, ← div_eq_mul_inv, div_div]
  rw [hvalue] at hr
  have hnear : r ≤ t + 2 ∧ t ≤ r + 2 := by
    rcases herror with hnear | habs
    · exact hr.near ht (hnear.div hpow)
    · have habs : |rankValue g / 10 ^ k - s / 10 ^ 308 / 10 ^ k| ≤ 2 ^ (-1074 : Int) := by
        rw [← sub_div, abs_div, abs_of_pos hpow]
        exact (div_le_self (abs_nonneg _) (one_le_pow₀ (by norm_num))).trans habs
      exact ⟨ht.le_add_two_of_abs hr (by rwa [abs_sub_comm]), hr.le_add_two_of_abs ht habs⟩
  refine ⟨t, hnear.1, hnear.2, fun _ hsmall => ?_, fun _ => ?_⟩
  · omega
  · have hzero : (rounded s == 0) = false := hrounded ▸ ofRank_beq_zero hf hf'
    rw [scale?_below hk hzero, hfirst, scale?_neg hk (hk'.trans (by decide)), hpower, hsecond]

/-- **Two roundings.** A number with a rank is read as a number whose rank is at most two places
away, if that is not the infinity. -/
theorem exists_isScaled {k : Int} (hs : 0 < s) (hs' : s ≤ 10 ^ 17) (hk : -330 ≤ k) (hk' : k ≤ 308)
    (hr : IsRankOf (s * 10 ^ k) r) : ∃ t, IsScaled s k r t := by
  rcases Int.lt_or_le k 0 with hneg | hnonneg
  · rcases Int.lt_or_le k (-308) with hbelow | habove
    · obtain ⟨n, rfl⟩ : ∃ n : Nat, k = -((308 + n : Nat) : Int) := ⟨(-k - 308).toNat, by omega⟩
      exact exists_isScaled_below hs hs' (by omega) (by omega) hr
    · obtain ⟨n, rfl⟩ : ∃ n : Nat, k = -(n : Int) := ⟨(-k).toNat, by omega⟩
      exact exists_isScaled_neg hs hs' (by omega) (by omega) hr
  · obtain ⟨n, rfl⟩ : ∃ n : Nat, k = n := ⟨k.toNat, by omega⟩
    exact exists_isScaled_natCast hs hs' (by omega) hr

end Json.Quantity

end RegisterMachine
