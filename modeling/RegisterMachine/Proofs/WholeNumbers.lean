import RegisterMachine.Proofs.SignedRanks

/-!
# Numbers that are whole

A finite binary64 number has an exact value (`Binary64.value?`), which may be a natural number. The
model finds this out from the bits (`Binary64.positive?_eq_some_iff`). The operations of the library
agree with it: whole numbers are compared by their values (`Binary64.le_iff_of_value?`), and what
they are converted to is the value, or the largest integer of 64 bits (`Binary64.toNat_toUInt64`).
Not every natural number is a value: from `2^53` on only even ones are (`Binary64.even_of_value?`).
-/

namespace RegisterMachine

-- A power of natural numbers means the same beside any other notion of powers.
attribute [local instance (2000)] instPowNat

namespace Magnitude

theorem value_nonneg (m : Magnitude) : 0 ≤ m.value := by
  rw [value]
  positivity

/-- A value is a natural number if the fraction comes out even, and then it is the quotient. -/
theorem value_eq_natCast_iff (m : Magnitude) (n : Nat) :
    m.value = n ↔ m.isIntegral = true ∧ m.floor = n := by
  have hpos := m.denominator_pos
  have hfraction : m.value = n ↔ m.numerator = n * m.denominator := by
    have hne : (m.denominator : ℚ) ≠ 0 := Nat.cast_ne_zero.2 hpos.ne'
    rw [← mul_left_inj' hne, value_mul_denominator]
    exact_mod_cast Iff.rfl
  rw [hfraction, isIntegral, beq_iff_eq, floor]
  constructor
  · intro h
    rw [h]
    exact ⟨Nat.mul_mod_left n _, Nat.mul_div_cancel n hpos⟩
  · rintro ⟨hmod, rfl⟩
    exact (Nat.div_mul_cancel (Nat.dvd_of_mod_eq_zero hmod)).symm

end Magnitude

namespace Binary64

def value? (x : Float) : Option ℚ :=
  if isFinite x then
    some (if isNegative x then -(magnitude x).value else (magnitude x).value)
  else none

variable {x y : Float} {n : Nat}

/-- A number with a positive value is finite and has no sign. -/
theorem value?_eq_some_iff_of_pos (hn : 0 < n) :
    value? x = some (n : ℚ) ↔
      isFinite x = true ∧ isNegative x = false ∧ (magnitude x).value = n := by
  have hpos : (0 : ℚ) < n := Nat.cast_pos.2 hn
  have hvalue := (magnitude x).value_nonneg
  rw [value?]
  cases isFinite x with
  | false => simp
  | true =>
    cases isNegative x with
    | false => simp
    | true =>
      simp only [if_true, Option.some.injEq, Bool.true_eq_false, false_and, and_false, iff_false]
      intro h
      linarith

/-- The natural number that is found from the bits is the value. -/
theorem positive?_eq_some_iff : positive? x = some n ↔ 0 < n ∧ value? x = some (n : ℚ) := by
  rw [positive?]
  constructor
  · intro h
    split at h
    · rename_i hx
      obtain rfl := Option.some.inj h
      simp only [Bool.and_eq_true, isIntegral, bne_iff_ne, Bool.not_eq_true'] at hx
      obtain ⟨⟨⟨hfinite, hintegral⟩, hsign⟩, hne⟩ := hx
      have hpos := Nat.pos_of_ne_zero hne
      refine ⟨hpos, (value?_eq_some_iff_of_pos hpos).2 ⟨hfinite, hsign, ?_⟩⟩
      exact ((magnitude x).value_eq_natCast_iff _).2 ⟨hintegral, rfl⟩
    · cases h
  · rintro ⟨hpos, h⟩
    obtain ⟨hfinite, hsign, hvalue⟩ := (value?_eq_some_iff_of_pos hpos).1 h
    obtain ⟨hintegral, rfl⟩ := ((magnitude x).value_eq_natCast_iff n).1 hvalue
    rw [if_pos]
    simp [isIntegral, hfinite, hintegral, hsign, hpos.ne']

theorem isIntegral_of_positive? (h : positive? x = some n) : isIntegral x = true := by
  rw [positive?] at h
  split at h
  · rename_i hx
    simp only [Bool.and_eq_true] at hx
    exact hx.1.1
  · cases h

/-- A number with a positive value is the number of its rank. -/
theorem eq_ofRank_of_value? (hn : 0 < n) (h : value? x = some (n : ℚ)) :
    x = ofRank (rankOf x) ∧ 0 < rankOf x ∧ rankOf x < infinityRank ∧
      rankValue (rankOf x) = n := by
  obtain ⟨hfinite, hsign, hvalue⟩ := (value?_eq_some_iff_of_pos hn).1 h
  have hx := eq_signed hfinite
  rw [hsign] at hx
  have hvalue : rankValue (rankOf x) = n := by rwa [magnitude_eq] at hvalue
  have hpos : 0 < rankOf x := by
    rw [← strictMono_rankValue.lt_iff_lt, hvalue, rankValue_zero]
    exact Nat.cast_pos.2 hn
  exact ⟨hx, hpos, (isFinite_iff x).1 hfinite, hvalue⟩

theorem value?_unique (hn : 0 < n) (hx : value? x = some (n : ℚ)) (hy : value? y = some (n : ℚ)) :
    x = y := by
  obtain ⟨hx, -, -, hxn⟩ := eq_ofRank_of_value? hn hx
  obtain ⟨hy, -, -, hyn⟩ := eq_ofRank_of_value? hn hy
  rw [hx, hy, strictMono_rankValue.injective (hxn.trans hyn.symm)]

/-- A natural number from `2^53` on is not a value if it is odd. -/
theorem even_of_value? (hn : 2 * fractionBound ≤ n) (h : value? x = some (n : ℚ)) :
    n % 2 = 0 := by
  have hpos : 0 < n := Nat.lt_of_lt_of_le (by decide) hn
  obtain ⟨-, -, -, hvalue⟩ := eq_ofRank_of_value? hpos h
  obtain ⟨c, m, hr, hlow, hhigh⟩ := exists_binade (rankOf x)
  rw [hr, rankValue_eq c hlow hhigh.le] at hvalue
  rcases Nat.lt_or_ge 1074 c with hlarge | hsmall
  · obtain ⟨k, rfl⟩ : ∃ k, c = 1074 + (k + 1) := ⟨c - 1075, by omega⟩
    have hexponent : ((1074 + (k + 1) : Nat) : Int) - 1074 = ((k + 1 : Nat) : Int) := by omega
    rw [hexponent, zpow_natCast] at hvalue
    have hvalue : m * 2 ^ (k + 1) = n := by exact_mod_cast hvalue
    rw [← hvalue, pow_succ, ← mul_assoc]
    exact Nat.mul_mod_left _ 2
  · -- the value is not above the significand
    have hone : (2 : ℚ) ^ ((c : Int) - 1074) ≤ 1 :=
      zpow_le_one_of_nonpos₀ (by norm_num) (by omega)
    have hle : (n : ℚ) ≤ m := by
      rw [← hvalue]
      exact mul_le_of_le_one_right (Nat.cast_nonneg m) hone
    have hle : n ≤ m := by exact_mod_cast hle
    omega

/-! ### Comparison and conversion -/

open Float.Model Float.Model.UnpackedFloat

theorem le_iff (x y : Float) :
    x ≤ y ↔ (x.toModel.unpack.compare y.toModel.unpack).any (·.isLE) = true :=
  decide_eq_true_iff

theorem ofRank_le_ofRank_iff {r s : Nat} (hr : 0 < r) (hr' : r < infinityRank) (hs : 0 < s)
    (hs' : s < infinityRank) : ofRank r ≤ ofRank s ↔ r ≤ s := by
  obtain ⟨c, m, rfl, hm, hlow, hhigh⟩ := exists_binade_of_pos hr
  obtain ⟨d, k, rfl, hk, hlow', hhigh'⟩ := exists_binade_of_pos hs
  rw [le_iff, unpack_ofRank c hm hlow hhigh hr', unpack_ofRank d hk hlow' hhigh' hs']
  change ((compare ((c : Int) - 1074) ((d : Int) - 1074)).then (compare m k)).isLE = true ↔ _
  rw [Ordering.isLE_then_iff_or, compare_lt_iff_lt, compare_eq_iff_eq, Nat.isLE_compare]
  -- a smaller exponent is a binade less, which no significand makes up for
  have hbinade {c d : Nat} (h : c < d) : c * fractionBound + fractionBound ≤ d * fractionBound := by
    rw [← Nat.succ_mul]
    exact Nat.mul_le_mul_right _ h
  rcases Nat.lt_trichotomy c d with hlt | rfl | hgt
  · have := hbinade hlt
    omega
  · omega
  · have := hbinade hgt
    omega

theorem le_iff_of_value? {m : Nat} (hm : 0 < m) (hn : 0 < n) (hx : value? x = some (m : ℚ))
    (hy : value? y = some (n : ℚ)) : x ≤ y ↔ m ≤ n := by
  obtain ⟨hxr, hxpos, hxfinite, hxvalue⟩ := eq_ofRank_of_value? hm hx
  obtain ⟨hyr, hypos, hyfinite, hyvalue⟩ := eq_ofRank_of_value? hn hy
  rw [hxr, hyr, ofRank_le_ofRank_iff hxpos hxfinite hypos hyfinite,
    ← strictMono_rankValue.le_iff_le, hxvalue, hyvalue, Nat.cast_le]

theorem unpackSign_of_isNegative (h : isNegative x = true) :
    Sign.ofBitVec (@unpackSign Format.binary64 x.toModel.toBits.toBitVec) = .negative := by
  have hx : 0x8000000000000000 ≤ x.toBits.toNat := of_decide_eq_true h
  have hlt := x.toBits.toNat_lt
  rw [Sign.ofBitVec, if_neg]
  intro hzero
  have hzero : x.toBits.toNat >>> 63 % 2 = 0 := congrArg BitVec.toNat hzero
  rw [Nat.shiftRight_eq_div_pow] at hzero
  omega

theorem not_one_le_of_isNegative (h : isNegative x = true) : ¬ (1.0 : Float) ≤ x := by
  have hone : (1.0 : Float).toModel.unpack = .finite .positive (2 ^ 52) (-52) (by decide) := by rfl
  have hx : x.toModel.unpack = UnpackedFloat.unpack Format.binary64 x.toModel.toBits.toBitVec := rfl
  rw [le_iff, hone, hx, UnpackedFloat.unpack]
  simp only [unpackSign_of_isNegative h]
  split
  · split <;> exact Bool.false_ne_true
  · split
    · split <;> exact Bool.false_ne_true
    · exact Bool.false_ne_true

theorem exists_positive?_of_one_le (hone : (1.0 : Float) ≤ x) (hx : isIntegral x = true) :
    ∃ n, positive? x = some n := by
  have hsign : isNegative x = false := Bool.eq_false_iff.2 fun h => not_one_le_of_isNegative h hone
  have hfinite : isFinite x = true := (Bool.and_eq_true_iff.1 hx).1
  rcases Nat.eq_zero_or_pos (rankOf x) with hzero | hpos
  · have hxr := eq_signed hfinite
    rw [hsign, hzero] at hxr
    rw [hxr] at hone
    exact absurd hone (by decide)
  · have hvalue : (magnitude x).value ≠ 0 := by
      rw [magnitude_eq, ← rankValue_zero]
      exact (strictMono_rankValue hpos).ne'
    have hfloor : (magnitude x).floor ≠ 0 := by
      intro hfloor
      have hintegral : (magnitude x).isIntegral = true := (Bool.and_eq_true_iff.1 hx).2
      exact hvalue (((magnitude x).value_eq_natCast_iff 0).2 ⟨hintegral, hfloor⟩)
    refine ⟨(magnitude x).floor, if_pos ?_⟩
    simp [hx, hsign, hfloor]

theorem mantissa_shiftRight (em : ExtendedMantissa) (k : Nat) :
    (em >>> k).mantissa = em.mantissa / 2 ^ k := by
  induction k with
  | zero => exact (Nat.div_one _).symm
  | succ k ih =>
    rw [pow_succ, ← Nat.div_div_eq_div_mul, ← ih]
    rfl

theorem roundToInt_positive (m : Nat) (e : Int) :
    roundToInt .positive m e = ((⟨m, e⟩ : Magnitude).floor : Int) := by
  have hshift : (0 - (e - ((e - 0).toNat : Int))).toNat = (-e).toNat := by omega
  change (((ExtendedMantissa.ofMantissaAndAccuracy (m <<< (e - 0).toNat) .exact >>>
    (0 - (e - ((e - 0).toNat : Int))).toNat).mantissa : Nat) : Int) = _
  rw [mantissa_shiftRight, hshift, Int.sub_zero]
  change ((m <<< e.toNat / 2 ^ (-e).toNat : Nat) : Int) = _
  rw [Nat.shiftLeft_eq, Magnitude.floor, Magnitude.numerator, Magnitude.denominator]

theorem toNat_ofNatClamp (n : Nat) :
    (UInt64.ofNatClamp n).toNat = min n (UInt64.size - 1) := by
  rw [UInt64.ofNatClamp]
  split
  · rw [UInt64.toNat_ofNatLT]
    omega
  · rw [UInt64.toNat_ofNatLT]
    omega

/-- A whole number is converted to itself, or to the largest number that there is room for. -/
theorem toNat_toUInt64 (hn : 0 < n) (h : value? x = some (n : ℚ)) :
    x.toUInt64.toNat = min n (UInt64.size - 1) := by
  obtain ⟨hx, hpos, hfinite, hvalue⟩ := eq_ofRank_of_value? hn h
  obtain ⟨c, m, hr, hm, hlow, hhigh⟩ := exists_binade_of_pos hpos
  rw [hr] at hx hfinite hvalue
  rw [rankValue, magnitudeOfRank_eq c hlow hhigh] at hvalue
  obtain ⟨-, hfloor⟩ := (Magnitude.value_eq_natCast_iff _ n).1 hvalue
  have hunpack := unpack_ofRank c hm hlow hhigh hfinite
  change (UInt64.ofNatClamp (x.toModel.unpack.toInt 0 (UInt64.size - 1)).toNat).toNat = _
  rw [toNat_ofNatClamp, hx, hunpack]
  change min (roundToInt .positive m ((c : Int) - 1074)).toNat _ = _
  rw [roundToInt_positive, hfloor, Int.toNat_natCast]

end Binary64

end RegisterMachine
