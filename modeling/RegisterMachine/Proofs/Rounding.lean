import Mathlib
import RegisterMachine.Json.Quantity
import RegisterMachine.Proofs.Ranks

/-!
# Arithmetic rounds to ranks

Products and quotients of positive binary64 numbers, natural numbers and powers of ten are rounded
to the rank of their exact value (`exists_rank_mul`, `exists_rank_div`, `exists_rank_toFloat`,
`exists_rank_powerOfTen`). The operations of the library shift a significand to the right and keep
of what they shift out whether it is nothing, less than a half, a half, or more (`Describes`). That
is what is needed to round to the nearest natural number, and rounding a significand is rounding to
a rank.
-/

namespace RegisterMachine

-- A power of natural numbers means the same beside any other notion of powers.
attribute [local instance (2000)] instPowNat

namespace Binary64

open Float.Model Float.Model.UnpackedFloat

/-! ### Rounding a significand -/

def Describes : Accuracy → ℚ → Prop
  | .exact, f => f = 0
  | .inexact .lt, f => 0 < f ∧ f < 1 / 2
  | .inexact .eq, f => f = 1 / 2
  | .inexact .gt, f => 1 / 2 < f ∧ f < 1

theorem Describes.bounds {a : Accuracy} {f : ℚ} (h : Describes a f) : 0 ≤ f ∧ f < 1 := by
  match a, h with
  | .exact, h =>
    rw [Describes] at h
    norm_num [h]
  | .inexact .lt, h => exact ⟨h.1.le, by linarith [h.2]⟩
  | .inexact .eq, h =>
    rw [Describes] at h
    norm_num [h]
  | .inexact .gt, h => exact ⟨by linarith [h.1], h.2⟩

theorem Describes.roundsTo {a : Accuracy} {t : ℚ} {m : Nat} (h : Describes a (t - m)) :
    RoundsTo t (a.roundToNearestEven m) := by
  match a, h with
  | .exact, h =>
    rw [Describes] at h
    simp only [Accuracy.roundToNearestEven]
    exact ⟨by linarith, by linarith, fun h => by rcases h with h | h <;> linarith⟩
  | .inexact .lt, h =>
    obtain ⟨hlow, hhigh⟩ := h
    simp only [Accuracy.roundToNearestEven]
    exact ⟨by linarith, by linarith, fun h => by rcases h with h | h <;> linarith⟩
  | .inexact .eq, h =>
    rw [Describes] at h
    simp only [Accuracy.roundToNearestEven]
    rcases Nat.mod_two_eq_zero_or_one m with heven | hodd
    · rw [heven, Nat.add_zero]
      exact ⟨by linarith, by linarith, fun _ => heven⟩
    · rw [hodd]
      refine ⟨?_, ?_, fun _ => by omega⟩
      · push_cast
        linarith
      · push_cast
        linarith
  | .inexact .gt, h =>
    obtain ⟨hlow, hhigh⟩ := h
    simp only [Accuracy.roundToNearestEven]
    refine ⟨?_, ?_, ?_⟩
    · push_cast
      linarith
    · push_cast
      linarith
    · push_cast
      rintro (h | h) <;> linarith

def IsCutOf (em : ExtendedMantissa) (t : ℚ) : Prop := Describes em.accuracy (t - em.mantissa)

theorem IsCutOf.shiftRightOne {em : ExtendedMantissa} {t : ℚ} (h : IsCutOf em t) :
    IsCutOf em.shiftRightOne (t / 2) := by
  obtain ⟨m, r, s⟩ := em
  have hm : (m : ℚ) = 2 * (m / 2 : Nat) + (m % 2 : Nat) := by
    exact_mod_cast (Nat.div_add_mod m 2).symm
  rcases Nat.mod_two_eq_zero_or_one m with hparity | hparity <;> rw [hparity] at hm <;>
    cases r <;> cases s <;>
    simp only [IsCutOf, ExtendedMantissa.accuracy, ExtendedMantissa.shiftRightOne, hparity,
      Describes, bne_self_eq_false, Bool.or_false, Bool.or_true, Nat.reduceBNe] at h ⊢ <;>
    first
      | linarith
      | exact ⟨by linarith [h.1], by linarith [h.2]⟩
      | exact ⟨by linarith, by linarith⟩

theorem IsCutOf.shiftRight {em : ExtendedMantissa} {t : ℚ} (h : IsCutOf em t) (k : Nat) :
    IsCutOf (em >>> k) (t / 2 ^ k) := by
  induction k with
  | zero =>
    rw [pow_zero, div_one]
    exact h
  | succ k ih =>
    rw [pow_succ, ← div_div]
    exact ih.shiftRightOne

theorem isCutOf_ofMantissaAndAccuracy {a : Accuracy} {t : ℚ} {m : Nat} (h : Describes a (t - m)) :
    IsCutOf (.ofMantissaAndAccuracy m a) t := by
  match a, h with
  | .exact, h => exact h
  | .inexact .lt, h => exact h
  | .inexact .eq, h => exact h
  | .inexact .gt, h => exact h

/-! ### Packing -/

theorem toNat_packComponents (e : BitVec 11) (f : BitVec 52) :
    (packComponents Format.binary64 .positive e f).toNat = e.toNat * fractionBound + f.toNat := by
  have hzero : (Sign.positive.toBitVec ++ e).toNat = e.toNat := by
    rw [BitVec.toNat_append]
    simp [Sign.toBitVec]
  rw [packComponents, BitVec.toNat_append, hzero, ← Nat.shiftLeft_add_eq_or_of_lt f.isLt,
    Nat.shiftLeft_eq]
  rfl

/-- A number with its place in a binade is packed as its rank. -/
theorem toNat_pack (c : Nat) {m : Nat} (hm : 0 < m) (hlow : c = 0 ∨ fractionBound ≤ m)
    (hhigh : m < 2 * fractionBound) :
    (UnpackedFloat.pack Format.binary64 (.finite .positive m ((c : Int) - 1074) hm)).toNat =
      min (c * fractionBound + m) infinityRank := by
  have hbiased : ((c : Int) - 1074 + (Format.binary64.exponentBias : Int) +
      (Format.binary64.mantissaBitsWithoutImplicit : Int)).toNat = c + 1 := by
    have hbias : (Format.binary64.exponentBias : Int) = 1023 := rfl
    have hbits : (Format.binary64.mantissaBitsWithoutImplicit : Int) = 52 := rfl
    omega
  have hbound : fractionBound = 2 ^ 52 := rfl
  have hinfinity : infinityRank = 2047 * fractionBound := rfl
  rw [UnpackedFloat.pack]
  dsimp only
  rw [hbiased]
  split
  · rename_i hover
    have hover : 2048 ≤ c + 1 + 1 := hover
    have hinfinite : infinityRank ≤ c * fractionBound + m := by
      have hc : 2046 * fractionBound ≤ c * fractionBound := Nat.mul_le_mul_right _ (by omega)
      omega
    rw [packedInfinity, toNat_packComponents, Nat.min_eq_right hinfinite]
    rfl
  · rename_i hunder
    have hunder : ¬ 2048 ≤ c + 1 + 1 := hunder
    have hfinite : c * fractionBound + m ≤ infinityRank := by
      have hc : c * fractionBound ≤ 2045 * fractionBound := Nat.mul_le_mul_right _ (by omega)
      omega
    rw [Nat.min_eq_left hfinite]
    have hlog : m.log2 + 1 = Format.binary64.mantissaBits ↔ fractionBound ≤ m := by
      have hbits : Format.binary64.mantissaBits = 53 := rfl
      have hle := Nat.le_log2 (k := 52) hm.ne'
      have hlt := Nat.log2_lt (k := 53) hm.ne'
      omega
    split
    · rename_i hnormal
      have hnormal := hlog.1 hnormal
      rw [toNat_packComponents, BitVec.toNat_ofNat, BitVec.toNat_ofNat,
        Nat.mod_eq_of_lt (by omega : c + 1 < 2 ^ 11)]
      have hmod : m % 2 ^ 52 = m - fractionBound := by
        rw [← hbound, Nat.mod_eq_sub_mod hnormal, Nat.mod_eq_of_lt (by omega)]
      rw [hmod, Nat.succ_mul]
      omega
    · rename_i hsubnormal
      have hsubnormal := fun h => hsubnormal (hlog.2 h)
      have hc : c = 0 := hlow.resolve_right hsubnormal
      rw [toNat_packComponents, BitVec.toNat_ofNat, BitVec.toNat_ofNat,
        Nat.mod_eq_of_lt (by omega : m < 2 ^ 52), hc, Nat.zero_mod]

def ofRank (r : Nat) : Float := Float.ofBits (UInt64.ofNat (min r infinityRank))

theorem ofNat_eq_packComponents {r : Nat} (h : r ≤ infinityRank) :
    BitVec.ofNat 64 r = packComponents Format.binary64 .positive
      (BitVec.ofNat 11 (r / fractionBound)) (BitVec.ofNat 52 (r % fractionBound)) := by
  have hsmall : r < 2 ^ 64 := Nat.lt_of_le_of_lt h (by decide)
  have hexponent : r / fractionBound < 2 ^ 11 :=
    Nat.lt_of_le_of_lt (Nat.div_le_div_right h) (by decide)
  have hfraction : r % fractionBound < 2 ^ 52 := Nat.mod_lt r (by decide)
  apply BitVec.eq_of_toNat_eq
  rw [toNat_packComponents, BitVec.toNat_ofNat, BitVec.toNat_ofNat, BitVec.toNat_ofNat,
    Nat.mod_eq_of_lt hsmall, Nat.mod_eq_of_lt hexponent, Nat.mod_eq_of_lt hfraction,
    Nat.div_add_mod']

theorem isNaNBits_ofNat {r : Nat} (h : r ≤ infinityRank) :
    @isNaNBits Format.binary64 (BitVec.ofNat 64 r) = false := by
  rw [isNaNBits, decide_eq_false_iff_not, ofNat_eq_packComponents h, unpackExponent_packComponents,
    unpackMantissa_packComponents]
  rintro ⟨hexponent, hfraction⟩
  apply hfraction
  have hexponent : r / fractionBound = 2047 := by
    have hlt : r / fractionBound < 2 ^ 11 :=
      Nat.lt_of_le_of_lt (Nat.div_le_div_right h) (by decide)
    have htoNat := congrArg BitVec.toNat hexponent
    rw [BitVec.toNat_ofNat, Nat.mod_eq_of_lt hlt] at htoNat
    exact htoNat
  have hr : r % fractionBound = 0 := by
    have hdiv := Nat.div_add_mod' r fractionBound
    have hinfinity : infinityRank = 2047 * fractionBound := rfl
    rw [hexponent] at hdiv
    omega
  rw [hr]

theorem toBitVec_ofRank (r : Nat) :
    (ofRank r).toModel.toBits.toBitVec = BitVec.ofNat 64 (min r infinityRank) := by
  change UnpackedFloat.pack Format.binary64
    (UnpackedFloat.unpack Format.binary64 (BitVec.ofNat 64 (min r infinityRank))) = _
  rw [pack_unpack, isNaNBits_ofNat (Nat.min_le_right _ _), if_neg Bool.false_ne_true]

theorem toNat_toBits_ofRank (r : Nat) : (ofRank r).toBits.toNat = min r infinityRank := by
  have hsmall : min r infinityRank < 2 ^ 64 :=
    Nat.lt_of_le_of_lt (Nat.min_le_right _ _) (by decide)
  rw [← UInt64.toNat_toBitVec]
  change (ofRank r).toModel.toBits.toBitVec.toNat = _
  rw [toBitVec_ofRank, BitVec.toNat_ofNat, Nat.mod_eq_of_lt hsmall]

/-- A number that was packed as a rank is the number of this rank. -/
theorem ofModel_pack_eq_ofRank {x : UnpackedFloat} {r : Nat}
    (h : (UnpackedFloat.pack Format.binary64 x).toNat = min r infinityRank) :
    Float.ofModel (Float.Model.pack x) = ofRank r := by
  rw [← Float.toBits_inj, ← UInt64.toNat_inj, toNat_toBits_ofRank, ← h]
  rfl

/-- The number of a rank is unpacked as its place in a binade. -/
theorem unpack_ofRank (c : Nat) {m : Nat} (hm : 0 < m) (hlow : c = 0 ∨ fractionBound ≤ m)
    (hhigh : m < 2 * fractionBound) (hfinite : c * fractionBound + m < infinityRank) :
    (ofRank (c * fractionBound + m)).toModel.unpack = .finite .positive m ((c : Int) - 1074) hm := by
  have hbound : fractionBound = 2 ^ 52 := rfl
  have hinfinity : infinityRank = 2047 * fractionBound := rfl
  have hc : c < 2046 := by
    by_contra hc
    have hle : 2046 * fractionBound ≤ c * fractionBound := Nat.mul_le_mul_right _ (by omega)
    omega
  have htoNat (n : Nat) (hn : n < 2 ^ 11) : (BitVec.ofNat 11 n).toNat = n := by
    rw [BitVec.toNat_ofNat, Nat.mod_eq_of_lt hn]
  have hbias : ((Format.binary64.exponentBias : Int) +
      (Format.binary64.mantissaBitsWithoutImplicit : Int)) = 1075 := rfl
  change UnpackedFloat.unpack Format.binary64 (ofRank _).toModel.toBits.toBitVec = _
  rw [toBitVec_ofRank, Nat.min_eq_left hfinite.le, ofNat_eq_packComponents hfinite.le,
    UnpackedFloat.unpack]
  simp only [unpackMantissa_packComponents, unpackExponent_packComponents,
    unpackSign_packComponents, Sign.ofBitVec_toBitVec]
  have hplus : c * fractionBound + m = m + c * fractionBound := Nat.add_comm _ _
  rw [hplus, Nat.add_mul_div_right _ _ (by decide), Nat.add_mul_mod_self_right]
  rcases Nat.lt_or_ge m fractionBound with hsub | hnormal
  · have hc : c = 0 := by omega
    subst hc
    have hfraction : (BitVec.ofNat 52 m).toNat = m := by
      rw [BitVec.toNat_ofNat, ← hbound, Nat.mod_eq_of_lt hsub]
    have hne : BitVec.ofNat 52 m ≠ 0#52 := by
      intro h
      rw [h] at hfraction
      exact hm.ne' hfraction.symm
    rw [Nat.div_eq_of_lt hsub, Nat.mod_eq_of_lt hsub, if_neg (by decide), if_pos rfl, dif_neg hne,
      finite.injEq, hbias]
    exact ⟨rfl, hfraction, rfl⟩
  · have hdiv : m / fractionBound = 1 := Nat.div_eq_of_lt_le (by omega) (by omega)
    have hmod : m % fractionBound = m - fractionBound := by
      rw [Nat.mod_eq_sub_mod hnormal, Nat.mod_eq_of_lt (by omega)]
    have hones : BitVec.ofNat 11 (1 + c) ≠ -1#11 := by
      intro h
      have h := congrArg BitVec.toNat h
      rw [htoNat _ (by omega)] at h
      have h : 1 + c = 2047 := h
      omega
    have hzeros : BitVec.ofNat 11 (1 + c) ≠ 0#11 := by
      intro h
      have h := congrArg BitVec.toNat h
      rw [htoNat _ (by omega)] at h
      have h : 1 + c = 0 := h
      omega
    have hfraction : (1#1 ++ BitVec.ofNat 52 (m - fractionBound)).toNat = m := by
      have hrest : (BitVec.ofNat 52 (m - fractionBound)).toNat = m - fractionBound := by
        rw [BitVec.toNat_ofNat, ← hbound, Nat.mod_eq_of_lt (by omega)]
      rw [BitVec.toNat_append, ← Nat.shiftLeft_add_eq_or_of_lt (BitVec.isLt _), hrest]
      change 1 <<< 52 + (m - fractionBound) = m
      rw [Nat.one_shiftLeft]
      omega
    rw [hdiv, hmod, if_neg hones, if_neg hzeros, finite.injEq, hbias, htoNat _ (by omega)]
    refine ⟨rfl, hfraction, ?_⟩
    push_cast
    ring

/-! ### Rounding to a rank -/

theorem targetExponent_eq (m : Nat) (e : Int) :
    Format.binary64.targetExponent (totalExponent m e) = max ((m.log2 : Int) + e - 52) (-1074) := by
  have hbits : (Format.binary64.mantissaBits : Int) = 53 := rfl
  have hmin : Format.binary64.minExponent = -1074 := rfl
  rw [Format.targetExponent, totalExponent, hbits, hmin]
  congr 1
  ring

/-- A number with its place in a binade is left as it is. -/
theorem shiftToTargetExponent_exact (c : Nat) {n : Nat} (hhigh : n < 2 * fractionBound) :
    shiftToTargetExponent Format.binary64 n ((c : Int) - 1074) .exact =
      (.ofMantissaAndAccuracy n .exact, (c : Int) - 1074) := by
  have hlog : n.log2 ≤ 52 := by
    rcases Nat.eq_zero_or_pos n with rfl | hn
    · decide
    · have := (Nat.log2_lt hn.ne').2 (hhigh.trans_le (by decide : 2 * fractionBound ≤ 2 ^ 53))
      omega
  have hshift : (Format.binary64.targetExponent (totalExponent n ((c : Int) - 1074)) -
      ((c : Int) - 1074)).toNat = 0 := by
    rw [targetExponent_eq]
    omega
  rw [shiftToTargetExponent, shiftToExponent, hshift]
  simp only [Nat.cast_zero, add_zero]
  rfl

/-- The end of a binade is brought to the start of the next one. -/
theorem shiftToTargetExponent_carry (c : Nat) :
    shiftToTargetExponent Format.binary64 (2 * fractionBound) ((c : Int) - 1074) .exact =
      (.ofMantissaAndAccuracy fractionBound .exact, ((c + 1 : Nat) : Int) - 1074) := by
  have hlog : (2 * fractionBound).log2 = 53 := by
    rw [Nat.log2_eq_iff (by decide)]
    decide
  have hshift : (Format.binary64.targetExponent
      (totalExponent (2 * fractionBound) ((c : Int) - 1074)) - ((c : Int) - 1074)).toNat = 1 := by
    rw [targetExponent_eq, hlog]
    omega
  rw [shiftToTargetExponent, shiftToExponent, hshift]
  refine Prod.ext rfl ?_
  push_cast
  ring

def unpacked (m : Nat) (e : Int) : UnpackedFloat :=
  if h : m = 0 then .zero .positive else .finite .positive m e (Nat.pos_of_ne_zero h)

theorem ofModel_pack_unpacked (c : Nat) {n : Nat} (hlow : c = 0 ∨ fractionBound ≤ n)
    (hhigh : n < 2 * fractionBound) :
    Float.ofModel (Float.Model.pack (unpacked n ((c : Int) - 1074))) =
      ofRank (c * fractionBound + n) := by
  apply ofModel_pack_eq_ofRank
  by_cases hzero : n = 0
  · have hc : c = 0 := hlow.resolve_right (by rw [hzero]; decide)
    subst hzero hc
    rfl
  · rw [unpacked, dif_neg hzero]
    exact toNat_pack c (Nat.pos_of_ne_zero hzero) hlow hhigh

/-- What was rounded inside of a binade, or up to its end, is packed as its rank. -/
theorem ofModel_pack_rounded (c : Nat) {n : Nat} (hlow : c = 0 ∨ fractionBound ≤ n)
    (hhigh : n ≤ 2 * fractionBound) :
    Float.ofModel (Float.Model.pack (unpacked
        (shiftToTargetExponent Format.binary64 n ((c : Int) - 1074) .exact).1.mantissa
        (shiftToTargetExponent Format.binary64 n ((c : Int) - 1074) .exact).2)) =
      ofRank (c * fractionBound + n) := by
  rcases hhigh.lt_or_eq with hlt | rfl
  · rw [shiftToTargetExponent_exact c hlt]
    exact ofModel_pack_unpacked c hlow hlt
  · have hsum :
        c * fractionBound + 2 * fractionBound = (c + 1) * fractionBound + fractionBound := by
      ring
    rw [shiftToTargetExponent_carry c, hsum]
    exact ofModel_pack_unpacked (c + 1) (n := fractionBound) (.inr le_rfl) (by decide)

/-- A significand that is shifted to its target exponent has the digits of its binade. -/
theorem shifted_bounds {t : ℚ} {m c k : Nat} (hfloor : 0 ≤ t - m) (hceil : t - m < 1)
    (hlog : c = 0 ∧ m.log2 ≤ 52 + k ∨ m.log2 = 52 + k) :
    (c = 0 ∨ (fractionBound : ℚ) ≤ t / 2 ^ k) ∧ t / 2 ^ k < 2 * fractionBound := by
  have hpow : (0 : ℚ) < 2 ^ k := by positivity
  constructor
  · rcases Nat.eq_zero_or_pos c with hzero | hpos
    · exact .inl hzero
    · have hlog : m.log2 = 52 + k := by omega
      have hm : 2 ^ (52 + k) ≤ m := by
        rw [← hlog]
        refine Nat.log2_self_le ?_
        rintro rfl
        rw [Nat.log2_zero] at hlog
        omega
      have hm : (fractionBound : ℚ) * 2 ^ k ≤ m := by
        rw [pow_add] at hm
        exact_mod_cast hm
      refine .inr ((le_div_iff₀ hpow).2 ?_)
      linarith
  · have hm : m + 1 ≤ 2 ^ (53 + k) := by
      refine (Nat.lt_log2_self (n := m)).trans_le (Nat.pow_le_pow_right (by decide) ?_)
      omega
    have hm : (m : ℚ) + 1 ≤ 2 * fractionBound * 2 ^ k := by
      rw [pow_add] at hm
      exact_mod_cast hm
    rw [div_lt_iff₀ hpow]
    linarith

/-- Rounding with what is known of the part that was cut off is rounding to a rank. -/
theorem exists_rank_of_roundWithAccuracy {a : Accuracy} {t : ℚ} {m : Nat} {e : Int}
    (ha : Describes a (t - m)) (he : e ≤ Format.binary64.targetExponent (totalExponent m e)) :
    ∃ r, IsRankOf (t * 2 ^ e) r ∧
      Float.ofModel (Float.Model.pack (roundWithAccuracy Format.binary64 .positive m e a)) =
        ofRank r := by
  have htarget := targetExponent_eq m e
  obtain ⟨c, hc⟩ : ∃ c : Nat,
      Format.binary64.targetExponent (totalExponent m e) = (c : Int) - 1074 :=
    ⟨(Format.binary64.targetExponent (totalExponent m e) + 1074).toNat, by omega⟩
  obtain ⟨k, hk⟩ : ∃ k : Nat, (c : Int) - 1074 = e + k :=
    ⟨((c : Int) - 1074 - e).toNat, by omega⟩
  have hshift : (Format.binary64.targetExponent (totalExponent m e) - e).toNat = k := by omega
  have hscale : t * 2 ^ e = t / 2 ^ k * 2 ^ ((c : Int) - 1074) := by
    rw [hk, zpow_add₀ (by norm_num), zpow_natCast]
    field_simp
  obtain ⟨hfloor, hceil⟩ := ha.bounds
  obtain ⟨hlow, hhigh⟩ := shifted_bounds (c := c) (k := k) hfloor hceil (by omega)
  have hround := ((isCutOf_ofMantissaAndAccuracy ha).shiftRight k).roundsTo
  have hfirst : shiftToTargetExponent Format.binary64 m e a =
      (ExtendedMantissa.ofMantissaAndAccuracy m a >>> k, (c : Int) - 1074) := by
    rw [shiftToTargetExponent, shiftToExponent, hshift, hk]
  obtain ⟨hlow', hhigh'⟩ := hround.bounds hlow hhigh
  refine ⟨_, hscale ▸ isRankOf_of_roundsTo c hlow hhigh hround, ?_⟩
  rw [← ofModel_pack_rounded c hlow' hhigh']
  -- the library shifts once more, in case that rounding has reached the end of the binade
  change Float.ofModel (Float.Model.pack (unpacked
    (shiftToTargetExponent Format.binary64 (shiftToTargetExponent Format.binary64 m e
      a).1.roundedMantissa (shiftToTargetExponent Format.binary64 m e a).2 .exact).1.mantissa
    (shiftToTargetExponent Format.binary64 (shiftToTargetExponent Format.binary64 m e
      a).1.roundedMantissa (shiftToTargetExponent Format.binary64 m e a).2 .exact).2)) = _
  rw [hfirst]
  rfl

theorem exists_rank_of_round_exact {m : Nat} {e : Int}
    (he : e ≤ Format.binary64.targetExponent (totalExponent m e)) :
    ∃ r, IsRankOf (m * 2 ^ e) r ∧
      Float.ofModel (Float.Model.pack (roundWithAccuracy Format.binary64 .positive m e .exact)) =
        ofRank r :=
  exists_rank_of_roundWithAccuracy (sub_self _) he

/-! ### Operations -/

/-- A positive number is unpacked as a significand and an exponent with its value. -/
theorem exists_unpack_ofRank {r : Nat} (hpos : 0 < r) (hfinite : r < infinityRank) :
    ∃ (m : Nat) (e : Int) (hm : 0 < m), (ofRank r).toModel.unpack = .finite .positive m e hm ∧
      rankValue r = m * 2 ^ e ∧ (e = -1074 ∨ fractionBound ≤ m) := by
  obtain ⟨c, m, rfl, hm, hlow, hhigh⟩ := exists_binade_of_pos hpos
  refine ⟨m, (c : Int) - 1074, hm, unpack_ofRank c hm hlow hhigh hfinite,
    rankValue_eq c hlow hhigh.le, hlow.imp_left ?_⟩
  rintro rfl
  rfl

section

variable {r s : Nat}

theorem exists_rank_mul (hr : 0 < r) (hr' : r < infinityRank) (hs : 0 < s)
    (hs' : s < infinityRank) :
    ∃ t, IsRankOf (rankValue r * rankValue s) t ∧ ofRank r * ofRank s = ofRank t := by
  obtain ⟨m, e, hm, hunpack, hvalue, hlow⟩ := exists_unpack_ofRank hr hr'
  obtain ⟨n, f, hn, hunpack', hvalue', hlow'⟩ := exists_unpack_ofRank hs hs'
  have htarget : e + f ≤ Format.binary64.targetExponent (totalExponent (m * n) (e + f)) := by
    rw [targetExponent_eq]
    by_cases hsub : e = -1074 ∧ f = -1074
    · omega
    · have hmn : 2 ^ 52 ≤ m * n := by
        rcases hlow with he | hle
        · have hle' := hlow'.resolve_left fun hf => hsub ⟨he, hf⟩
          exact hle'.trans (Nat.le_mul_of_pos_left n hm)
        · exact le_trans hle (Nat.le_mul_of_pos_right m hn)
      have hlog := (Nat.le_log2 (Nat.mul_pos hm hn).ne').2 hmn
      omega
  obtain ⟨t, ht, hpack⟩ := exists_rank_of_round_exact htarget
  refine ⟨t, ?_, ?_⟩
  · have hproduct : rankValue r * rankValue s = ((m * n : Nat) : ℚ) * 2 ^ (e + f) := by
      rw [hvalue, hvalue', zpow_add₀ (by norm_num)]
      push_cast
      ring
    rw [hproduct]
    exact ht
  · rw [← hpack]
    change Float.ofModel (Float.Model.pack (UnpackedFloat.mul Format.binary64
      (ofRank r).toModel.unpack (ofRank s).toModel.unpack)) = _
    rw [hunpack, hunpack']
    rfl

theorem describes_accuracyOfFraction {n d : Nat} (hn : n < d) :
    Describes (accuracyOfFraction n d) ((n : ℚ) / d) := by
  have hd : (0 : ℚ) < d := by exact_mod_cast Nat.zero_lt_of_lt hn
  have hone : (n : ℚ) / d < 1 := by
    rw [div_lt_one hd]
    exact_mod_cast hn
  rw [accuracyOfFraction]
  split
  · rename_i hzero
    rw [hzero, Nat.cast_zero, zero_div]
    rfl
  · rename_i hpos
    have hpos : (0 : ℚ) < n := by exact_mod_cast Nat.pos_of_ne_zero hpos
    rcases lt_trichotomy (2 * n) d with hlt | heq | hgt
    · rw [compare_lt_iff_lt.2 hlt]
      have hlt : (2 : ℚ) * n < d := by exact_mod_cast hlt
      refine ⟨div_pos hpos hd, ?_⟩
      rw [div_lt_div_iff₀ hd (by norm_num)]
      linarith
    · rw [compare_eq_iff_eq.2 heq]
      have heq : (2 : ℚ) * n = d := by exact_mod_cast heq
      rw [Describes, div_eq_div_iff hd.ne' (by norm_num)]
      linarith
    · rw [compare_gt_iff_gt.2 hgt]
      have hgt : (d : ℚ) < 2 * n := by exact_mod_cast hgt
      refine ⟨?_, hone⟩
      rw [div_lt_div_iff₀ (by norm_num) hd]
      linarith

theorem le_targetExponent_quotient {m n k : Nat} {e f : Int} (hm : 0 < m) (hn : 0 < n)
    (hk : (e - f - min (e - f) (Format.binary64.targetExponent
      (totalExponent m e - totalExponent n f))).toNat = k) :
    min (e - f) (Format.binary64.targetExponent (totalExponent m e - totalExponent n f)) ≤
      Format.binary64.targetExponent (totalExponent ((m <<< k) / n)
        (min (e - f) (Format.binary64.targetExponent (totalExponent m e - totalExponent n f)))) := by
  have htarget : Format.binary64.targetExponent (totalExponent m e - totalExponent n f) =
      max ((m.log2 : Int) + e - (n.log2 + f) - 53) (-1074) := by
    have hbits : (Format.binary64.mantissaBits : Int) = 53 := rfl
    have hmin : Format.binary64.minExponent = -1074 := rfl
    rw [Format.targetExponent, totalExponent, totalExponent, hbits, hmin]
    congr 1
    ring
  rw [targetExponent_eq]
  generalize Format.binary64.targetExponent (totalExponent m e - totalExponent n f) = g at *
  by_cases hsmall : min (e - f) g ≤ -1074
  · omega
  · have hdigits : n.log2 + 1 + 52 ≤ m.log2 + k := by omega
    have hquotient : 2 ^ 52 ≤ (m <<< k) / n := by
      rw [Nat.le_div_iff_mul_le hn, Nat.shiftLeft_eq]
      calc 2 ^ 52 * n ≤ 2 ^ 52 * 2 ^ (n.log2 + 1) := Nat.mul_le_mul_left _ Nat.lt_log2_self.le
        _ = 2 ^ (n.log2 + 1 + 52) := by rw [← pow_add, Nat.add_comm]
        _ ≤ 2 ^ (m.log2 + k) := Nat.pow_le_pow_right (by decide) hdigits
        _ = 2 ^ m.log2 * 2 ^ k := pow_add ..
        _ ≤ m * 2 ^ k := Nat.mul_le_mul_right _ (Nat.log2_self_le hm.ne')
    have hlog := (Nat.le_log2 (Nat.lt_of_lt_of_le (by decide) hquotient).ne').2 hquotient
    omega

theorem exists_rank_div (hr : 0 < r) (hr' : r < infinityRank) (hs : 0 < s)
    (hs' : s < infinityRank) :
    ∃ t, IsRankOf (rankValue r / rankValue s) t ∧ ofRank r / ofRank s = ofRank t := by
  obtain ⟨m, e, hm, hunpack, hvalue, -⟩ := exists_unpack_ofRank hr hr'
  obtain ⟨n, f, hn, hunpack', hvalue', -⟩ := exists_unpack_ofRank hs hs'
  obtain ⟨g, hg⟩ : ∃ g, g = min (e - f) (Format.binary64.targetExponent
      (totalExponent m e - totalExponent n f)) := ⟨_, rfl⟩
  obtain ⟨k, hk⟩ : ∃ k : Nat, (e - f - g).toNat = k := ⟨_, rfl⟩
  have hn' : (0 : ℚ) < n := by exact_mod_cast hn
  have hdescribes : Describes (accuracyOfFraction ((m <<< k) % n) n)
      ((m * 2 ^ k : ℚ) / n - ((m <<< k) / n : Nat)) := by
    have hfraction : (m * 2 ^ k : ℚ) / n - ((m <<< k) / n : Nat) = ((m <<< k) % n : Nat) / n := by
      have hdiv : ((m <<< k : Nat) : ℚ) = n * ((m <<< k) / n : Nat) + ((m <<< k) % n : Nat) := by
        exact_mod_cast (Nat.div_add_mod (m <<< k) n).symm
      have hshift : ((m <<< k : Nat) : ℚ) = m * 2 ^ k := by
        rw [Nat.shiftLeft_eq]
        push_cast
        ring
      rw [← hshift, hdiv]
      field_simp
      ring
    rw [hfraction]
    exact describes_accuracyOfFraction (Nat.mod_lt _ hn)
  have htarget := le_targetExponent_quotient hm hn (e := e) (f := f) (hg ▸ hk)
  rw [← hg] at htarget
  obtain ⟨t, ht, hpack⟩ := exists_rank_of_roundWithAccuracy hdescribes htarget
  refine ⟨t, ?_, ?_⟩
  · have hquotient : rankValue r / rankValue s = (m * 2 ^ k : ℚ) / n * 2 ^ g := by
      have hsum : e = f + k + g := by omega
      rw [hvalue, hvalue', hsum, zpow_add₀ (by norm_num), zpow_add₀ (by norm_num), zpow_natCast]
      field_simp
    rw [hquotient]
    exact ht
  · rw [← hpack]
    change Float.ofModel (Float.Model.pack (UnpackedFloat.div Format.binary64
      (ofRank r).toModel.unpack (ofRank s).toModel.unpack)) = _
    rw [hunpack, hunpack']
    rw [← hk, hg]
    rfl

end

theorem exists_rank_toFloat {n : Nat} (hn : n < 2 ^ 64) :
    ∃ t, IsRankOf n t ∧ (UInt64.ofNat n).toFloat = ofRank t := by
  have htoNat : (UInt64.ofNat n).toNat = n := UInt64.toNat_ofNat_of_lt' hn
  rcases Nat.eq_zero_or_pos n with rfl | hpos
  · refine ⟨0, ?_, rfl⟩
    have hzero := IsRankOf.rankValue_self 0
    rwa [rankValue_zero] at hzero
  · obtain ⟨k, hk⟩ : ∃ k : Nat,
        (0 - Format.binary64.targetExponent (totalExponent n 0)).toNat = k := ⟨_, rfl⟩
    have hlog : (n <<< k).log2 = n.log2 + k := by
      rw [Nat.log2_eq_iff (Nat.pos_iff_ne_zero.1 (Nat.lt_of_lt_of_le hpos (Nat.le_shiftLeft ..))),
        Nat.shiftLeft_eq, pow_add, Nat.add_right_comm, pow_add]
      exact ⟨Nat.mul_le_mul_right _ (Nat.log2_self_le hpos.ne'),
        Nat.mul_lt_mul_of_pos_right Nat.lt_log2_self (by positivity)⟩
    have htarget : -(k : Int) ≤
        Format.binary64.targetExponent (totalExponent (n <<< k) (-(k : Int))) := by
      rw [targetExponent_eq] at hk ⊢
      omega
    obtain ⟨t, ht, hpack⟩ := exists_rank_of_round_exact htarget
    refine ⟨t, ?_, ?_⟩
    · have hvalue : (n : ℚ) = ((n <<< k : Nat) : ℚ) * 2 ^ (-(k : Int)) := by
        rw [Nat.shiftLeft_eq, zpow_neg, zpow_natCast]
        push_cast
        field_simp
      rw [hvalue]
      exact ht
    · have hcompare : compare (n : Int) 0 = .gt := compare_gt_iff_gt.2 (by exact_mod_cast hpos)
      rw [← hpack]
      change Float.ofModel (Float.Model.pack (UnpackedFloat.normalize Format.binary64
        ((UInt64.ofNat n).toNat : Int) 0 .positive)) = _
      rw [htoNat, UnpackedFloat.normalize, hcompare]
      change Float.ofModel (Float.Model.pack (roundWithAccuracy Format.binary64 .positive
        (n <<< (0 - Format.binary64.targetExponent (totalExponent n 0)).toNat)
        (0 - ((0 - Format.binary64.targetExponent (totalExponent n 0)).toNat : Int)) .exact)) = _
      rw [hk, Int.zero_sub]

/-- Every multiple of a power of two by a significand is the value of a rank. -/
theorem exists_rankValue_eq (c : Nat) {m : Nat} (hm : m ≤ 2 * fractionBound) :
    ∃ r, rankValue r = m * 2 ^ ((c : Int) - 1074) := by
  induction c generalizing m with
  | zero => exact ⟨_, rankValue_eq 0 (.inl rfl) hm⟩
  | succ c ih =>
    rcases Nat.lt_or_ge m fractionBound with hlt | hge
    · obtain ⟨r, hr⟩ := ih (m := 2 * m) (by omega)
      refine ⟨r, hr.trans ?_⟩
      have hexponent : ((c + 1 : Nat) : Int) - 1074 = (c : Int) - 1074 + 1 := by
        push_cast
        ring
      rw [hexponent, zpow_add_one₀ (by norm_num)]
      push_cast
      ring
    · exact ⟨_, rankValue_eq (c + 1) (.inr hge) hm⟩

/-- The powers of ten that are listed are the ones that are computed. -/
theorem powerOfTen_eq (k : Nat) :
    Json.Quantity.powerOfTen k = Float.ofModel (Float.Model.ofScientific 1 k) := by
  have hlisted : ∀ k < 23,
      Float.ofScientific 1 false k = Float.ofModel (Float.Model.ofScientific 1 k) := by
    decide +kernel
  rcases Nat.lt_or_ge k 23 with hlt | hge
  · exact hlisted k hlt
  · rw [Json.Quantity.powerOfTen, Float.ofScientific, dif_neg (by omega)]
    rfl

theorem exists_rank_powerOfTen {k : Nat} (hk : k ≤ 308) :
    ∃ t, IsRankOf (10 ^ k) t ∧ Json.Quantity.powerOfTen k = ofRank t := by
  have hten : 0 < 10 ^ k := Nat.pow_pos (by decide)
  have hdigits : 2 ^ 53 ≤ 1 <<< 53 * 10 ^ k := by
    rw [Nat.one_shiftLeft]
    exact Nat.le_mul_of_pos_right _ hten
  have htarget : (-53 : Int) ≤
      Format.binary64.targetExponent (totalExponent (1 <<< 53 * 10 ^ k) (-53)) := by
    have hlog := (Nat.le_log2 (Nat.lt_of_lt_of_le (by decide) hdigits).ne').2 hdigits
    rw [targetExponent_eq]
    omega
  obtain ⟨t, ht, hpack⟩ := exists_rank_of_round_exact htarget
  refine ⟨t, ?_, ?_⟩
  · have hvalue : (10 : ℚ) ^ k = ((1 <<< 53 * 10 ^ k : Nat) : ℚ) * 2 ^ (-53 : Int) := by
      rw [Nat.one_shiftLeft]
      push_cast
      norm_num
      ring
    rw [hvalue]
    exact ht
  · rw [← hpack, powerOfTen_eq]
    change Float.ofModel (Float.Model.pack (UnpackedFloat.ofScientific Format.binary64 1 k)) = _
    have hlarge : ¬ (k : Int) > 2 ^ Format.binary64.exponentBits := by
      have hbits : (2 : Int) ^ Format.binary64.exponentBits = 2048 := rfl
      omega
    have hsmall : ¬ (k : Int) < -((2 ^ Format.binary64.exponentBits : Int) + Nat.log2 1) := by
      have hbits : (2 : Int) ^ Format.binary64.exponentBits = 2048 := rfl
      omega
    rw [UnpackedFloat.ofScientific, dif_neg Nat.one_ne_zero, if_neg hlarge, if_neg hsmall,
      if_pos (Int.natCast_nonneg k)]
    rfl

end Binary64

end RegisterMachine
