import RegisterMachine.Decimal.Shortest

/-!
# Decimals beyond binary64

A decimal is rounded to infinity if it lies at least half way from the largest binary64 number to
the power of two above it. Mostly the number of digits and the exponent tell, and no power of ten
with a large exponent is computed. Main statement: the answer is that of the exact comparison.
-/

namespace RegisterMachine

-- A power of natural numbers means the same beside any other notion of powers.
attribute [local instance (2000)] instPowNat

namespace Decimal

/-- The least number that is rounded to infinity. -/
def infinityBound : Nat := (4 * Binary64.fractionBound - 1) * 2 ^ (970 : Nat)

/-- The exponent of the least power of ten above the decimal, unless that is zero. -/
def magnitudeExponent (d : Decimal) : Int := (Nat.toDigits 10 d.digits).length + d.exponent

def isInfinite (d : Decimal) : Bool :=
  if d.digits = 0 ∨ d.magnitudeExponent ≤ 308 then false
  else if 310 ≤ d.magnitudeExponent then true
  else infinityBound * 10 ^ (-d.exponent).toNat ≤ d.digits * 10 ^ d.exponent.toNat

theorem infinityBound_pos : 0 < infinityBound := by decide +kernel

theorem pow_le_infinityBound : ∀ k : Nat, k ≤ 308 → 10 ^ k ≤ infinityBound := by decide +kernel

theorem infinityBound_le_pow {k : Nat} (h : 309 ≤ k) : infinityBound ≤ 10 ^ k :=
  Nat.le_trans (by decide +kernel) (Nat.pow_le_pow_right (by decide) h)

theorem digits_lt (d : Decimal) : d.digits < 10 ^ (Nat.toDigits 10 d.digits).length :=
  (Nat.length_toDigits_le_iff (by decide)
    (List.length_pos_iff.2 Nat.toDigits_ne_nil)).1 (Nat.le_refl _)

theorem pow_le_digits (d : Decimal) (h : d.digits ≠ 0) :
    10 ^ ((Nat.toDigits 10 d.digits).length - 1) ≤ d.digits := by
  rcases Nat.eq_zero_or_pos ((Nat.toDigits 10 d.digits).length - 1) with hz | hz
  · rw [hz]
    omega
  · refine Nat.le_of_not_lt fun hlt => ?_
    have := (Nat.length_toDigits_le_iff (by decide) hz).2 hlt
    omega

theorem isInfinite_iff (d : Decimal) :
    d.isInfinite ↔ infinityBound * 10 ^ (-d.exponent).toNat ≤ d.digits * 10 ^ d.exponent.toNat := by
  have hpos (n : Nat) : 0 < (10 : Nat) ^ n := Nat.pow_pos (by decide)
  rw [isInfinite]
  split
  · next h =>
    refine ⟨fun h => by simp at h, fun hle => absurd hle (Nat.not_le.2 ?_)⟩
    rcases h with h | h
    · rw [h, Nat.zero_mul]
      exact Nat.mul_pos infinityBound_pos (hpos _)
    · rw [magnitudeExponent] at h
      obtain ⟨k, hk, hle⟩ : ∃ k ≤ 308,
          (Nat.toDigits 10 d.digits).length + d.exponent.toNat ≤ k + (-d.exponent).toNat :=
        ⟨308, Nat.le_refl _, by omega⟩
      calc d.digits * 10 ^ d.exponent.toNat
          < 10 ^ (Nat.toDigits 10 d.digits).length * 10 ^ d.exponent.toNat :=
            Nat.mul_lt_mul_of_pos_right d.digits_lt (hpos _)
        _ = 10 ^ ((Nat.toDigits 10 d.digits).length + d.exponent.toNat) := (Nat.pow_add ..).symm
        _ ≤ 10 ^ (k + (-d.exponent).toNat) := Nat.pow_le_pow_right (by decide) hle
        _ = 10 ^ k * 10 ^ (-d.exponent).toNat := Nat.pow_add ..
        _ ≤ infinityBound * 10 ^ (-d.exponent).toNat :=
            Nat.mul_le_mul_right _ (pow_le_infinityBound k hk)
  · next hlow =>
    split
    · next h =>
      refine ⟨fun _ => ?_, fun _ => rfl⟩
      rw [not_or] at hlow
      rw [magnitudeExponent] at h
      obtain ⟨k, hk, hle⟩ : ∃ k, 309 ≤ k ∧
          k + (-d.exponent).toNat ≤ (Nat.toDigits 10 d.digits).length - 1 + d.exponent.toNat :=
        ⟨309, Nat.le_refl _, by omega⟩
      calc infinityBound * 10 ^ (-d.exponent).toNat
          ≤ 10 ^ k * 10 ^ (-d.exponent).toNat :=
            Nat.mul_le_mul_right _ (infinityBound_le_pow hk)
        _ = 10 ^ (k + (-d.exponent).toNat) := (Nat.pow_add ..).symm
        _ ≤ 10 ^ ((Nat.toDigits 10 d.digits).length - 1 + d.exponent.toNat) :=
            Nat.pow_le_pow_right (by decide) hle
        _ = 10 ^ ((Nat.toDigits 10 d.digits).length - 1) * 10 ^ d.exponent.toNat := Nat.pow_add ..
        _ ≤ d.digits * 10 ^ d.exponent.toNat := Nat.mul_le_mul_right _ (d.pow_le_digits hlow.1)
    · simp

end Decimal

end RegisterMachine
