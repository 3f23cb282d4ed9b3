import Mathlib.Tactic.FieldSimp
import RegisterMachine.Decimal.Range
import RegisterMachine.Json.Quantity
import RegisterMachine.Proofs.Numerals
import RegisterMachine.Proofs.ShortestDecimals

/-!
# The values of written numerals

The digits of a numeral, the point left out, are a natural number, and the numeral has this number
times a power of ten as its value. While the natural number fits 64 bits, the reader takes the two
as they are (`Numeral.Spells.quantity?_eq`). A stored number has few enough digits, and the value of
its numeral is its shortest decimal (`NumberLayout.exists_spells`).
-/

namespace RegisterMachine

-- A power of natural numbers means the same beside any other notion of powers.
attribute [local instance (2000)] instPowNat

namespace Numeral

/-! ### Digits -/

theorem foldl_digits (s : Nat) (cs : List Char) :
    cs.foldl (fun n c => 10 * n + digitValue c) s = s * 10 ^ cs.length + valueOfDigits cs := by
  induction cs generalizing s with
  | nil => simp [valueOfDigits]
  | cons c cs ih =>
    rw [valueOfDigits, List.foldl_cons, List.foldl_cons, ih, ih (10 * 0 + digitValue c),
      List.length_cons, pow_succ]
    ring

theorem valueOfDigits_append (cs ds : List Char) :
    valueOfDigits (cs ++ ds) = valueOfDigits cs * 10 ^ ds.length + valueOfDigits ds := by
  rw [valueOfDigits, List.foldl_append, foldl_digits]
  rfl

theorem valueOfDigits_zeros (n : Nat) : valueOfDigits (List.replicate n '0') = 0 := by
  induction n with
  | zero => rfl
  | succ n ih => exact ih

theorem lt_pow_length_digitsOf (n : Nat) : n < 10 ^ (digitsOf n).length :=
  Decimal.digits_lt ⟨n, 0⟩

theorem length_digitsOf_le {n k : Nat} (hk : 0 < k) (hn : n < 10 ^ k) : (digitsOf n).length ≤ k :=
  (Nat.length_toDigits_le_iff (by decide) hk).2 hn

theorem length_digitsOf_pos (n : Nat) : 0 < (digitsOf n).length :=
  List.length_pos_iff.2 Nat.toDigits_ne_nil

/-! ### Values -/

def significand (n : Numeral) : Nat := valueOfDigits (n.whole ++ n.fraction.getD [])

def writtenPower (n : Numeral) : Int :=
  match n.exponent with
  | some (true, digits) => -(valueOfDigits digits : Int)
  | some (false, digits) => valueOfDigits digits
  | none => 0

def power (n : Numeral) : Int := n.writtenPower - (n.fraction.getD []).length

end Numeral

namespace Json.Quantity

open Numeral

theorem absorb_eq {s : Nat} {cs : List Char}
    (h : s * 10 ^ cs.length + valueOfDigits cs < significandBound) :
    absorb s cs = (s * 10 ^ cs.length + valueOfDigits cs, []) := by
  rw [← foldl_digits] at h ⊢
  induction cs generalizing s with
  | nil => rfl
  | cons c cs ih =>
    rw [List.foldl_cons] at h ⊢
    have hle : 10 * s + digitValue c ≤
        cs.foldl (fun n c => 10 * n + digitValue c) (10 * s + digitValue c) := by
      rw [foldl_digits]
      exact (Nat.le_mul_of_pos_right _ (by positivity)).trans (Nat.le_add_right _ _)
    rw [absorb, if_pos (hle.trans_lt h), ih h]

theorem real?_eq {n : Numeral} (hsignificand : n.significand < significandBound)
    (hpower : ∀ e ∈ n.exponent, valueOfDigits e.2 < exponentBound) :
    real? n = scale? (rounded n.significand) n.power := by
  have hsplit := valueOfDigits_append n.whole (n.fraction.getD [])
  rw [← significand] at hsplit
  have hfraction := absorb_eq (hsplit ▸ hsignificand)
  have hwhole : absorb 0 n.whole = (valueOfDigits n.whole, []) := by
    have hle : valueOfDigits n.whole ≤ n.significand := by
      rw [hsplit]
      exact (Nat.le_mul_of_pos_right _ (by positivity)).trans (Nat.le_add_right _ _)
    have habsorb := @absorb_eq 0 n.whole
    rw [Nat.zero_mul, Nat.zero_add] at habsorb
    exact habsorb (hle.trans_lt hsignificand)
  rw [← hsplit] at hfraction
  obtain ⟨negative, whole, fraction, exponent⟩ := n
  dsimp only at hwhole hfraction hpower
  unfold real?
  dsimp only
  rw [hwhole]
  dsimp only
  rw [hfraction]
  match exponent with
  | none => rfl
  | some (true, digits) =>
    have hlt := hpower _ rfl
    dsimp only at hlt ⊢
    rw [if_neg (Nat.not_le.2 hlt), if_pos rfl]
    congr 1
    dsimp only [power, writtenPower, List.length_nil]
    omega
  | some (false, digits) =>
    have hlt := hpower _ rfl
    dsimp only at hlt ⊢
    rw [if_neg (Nat.not_le.2 hlt), if_neg Bool.false_ne_true]
    congr 1
    dsimp only [power, writtenPower, List.length_nil]
    omega

end Json.Quantity

namespace Numeral

open Json

/-- The numeral is not one of an integer, and its digits and its power are those of a decimal. -/
structure Spells (n : Numeral) (negative : Bool) (d : Decimal) : Prop where
  negative : n.negative = negative
  marked : n.fraction.isSome ∨ n.exponent.isSome
  significand : n.significand = d.digits
  power : n.power = d.exponent
  written : ∀ e ∈ n.exponent, valueOfDigits e.2 < Quantity.exponentBound

theorem Spells.quantity?_eq {n : Numeral} {negative : Bool} {d : Decimal}
    (h : n.Spells negative d) (hd : d.digits < Quantity.significandBound) :
    n.quantity? = (Quantity.scale? (Quantity.rounded d.digits) d.exponent).map
      fun x => .real (if negative then -x else x) := by
  have hmarked : ¬ ((n.fraction.isNone && n.exponent.isNone &&
      decide (valueOfDigits n.whole < Quantity.significandBound)) = true) := by
    rcases h.marked with hmarked | hmarked
    · rw [← Option.not_isNone, Bool.not_eq_true'] at hmarked
      rw [hmarked]
      exact Bool.false_ne_true
    · rw [← Option.not_isNone, Bool.not_eq_true'] at hmarked
      rw [hmarked, Bool.and_false]
      exact Bool.false_ne_true
  unfold quantity?
  dsimp only
  rw [if_neg hmarked, Quantity.real?_eq (h.significand ▸ hd) h.written, h.significand, h.power,
    h.negative]

end Numeral

namespace NumberLayout

open Numeral Json

/-- With zeros behind the digits, the zero behind the point is one more of them. -/
theorem spells_spellOut_of_nonneg (negative : Bool) {d : Decimal} (hd : 0 ≤ d.exponent) :
    (stored.spellOut negative d).Spells negative ⟨d.digits * 10 ^ (d.exponent.toNat + 1), -1⟩ := by
  rw [spellOut]
  dsimp only
  rw [if_pos hd]
  refine ⟨rfl, .inl rfl, ?_, rfl, nofun⟩
  change valueOfDigits ((digitsOf d.digits ++ List.replicate d.exponent.toNat '0') ++
    List.replicate 1 '0') = _
  rw [List.append_assoc, List.replicate_append_replicate, valueOfDigits_append,
    valueOfDigits_digitsOf, valueOfDigits_zeros, List.length_replicate, Nat.add_zero]

theorem spells_spellOut_of_neg (negative : Bool) {d : Decimal} (hd : d.exponent < 0) :
    (stored.spellOut negative d).Spells negative d := by
  rw [spellOut]
  dsimp only
  rw [if_neg (Int.not_le.2 hd)]
  split
  · rename_i hlt
    refine ⟨rfl, .inl rfl, ?_, ?_, nofun⟩
    · change valueOfDigits (List.take _ _ ++ List.drop _ _) = _
      rw [List.take_append_drop, valueOfDigits_digitsOf]
    · dsimp only [power, writtenPower, Option.getD_some]
      rw [List.length_drop]
      omega
  · rename_i hge
    refine ⟨rfl, .inl rfl, ?_, ?_, nofun⟩
    · change valueOfDigits (List.replicate 1 '0' ++ (List.replicate _ '0' ++ _)) = _
      rw [valueOfDigits_append, valueOfDigits_append, valueOfDigits_zeros, valueOfDigits_zeros,
        valueOfDigits_digitsOf]
      omega
    · dsimp only [power, writtenPower, Option.getD_some]
      rw [List.length_append, List.length_replicate]
      omega

/-- The power of ten makes up for the point behind the first digit. -/
theorem spells_scientific (negative : Bool) {d : Decimal}
    (hlow : -1000 ≤ d.exponent) (hhigh : d.exponent ≤ 1000) (hdigits : d.digits < 10 ^ 100) :
    (scientific negative d (d.exponent + (digitsOf d.digits).length - 1)).Spells negative d := by
  have hpos := length_digitsOf_pos d.digits
  have hlength := length_digitsOf_le (by decide) hdigits
  have hrest : (if ((digitsOf d.digits).drop 1).isEmpty then none
      else some ((digitsOf d.digits).drop 1)).getD [] = (digitsOf d.digits).drop 1 := by
    split
    · rename_i hempty
      exact (List.isEmpty_iff.1 hempty).symm
    · rfl
  rw [scientific]
  refine ⟨rfl, .inr rfl, ?_, ?_, fun e he => ?_⟩
  · dsimp only [significand]
    rw [hrest, List.take_append_drop, valueOfDigits_digitsOf]
  · dsimp only [power]
    rw [hrest, List.length_drop]
    dsimp only [writtenPower]
    split
    · rename_i heq
      obtain ⟨hneg, rfl⟩ := Prod.mk.inj (Option.some.inj heq)
      have hneg := of_decide_eq_true hneg
      rw [valueOfDigits_digitsOf]
      omega
    · rename_i heq
      obtain ⟨hneg, rfl⟩ := Prod.mk.inj (Option.some.inj heq)
      have hneg := of_decide_eq_false hneg
      rw [valueOfDigits_digitsOf]
      omega
    · rename_i heq
      cases heq
  · rw [← Option.some.inj he, valueOfDigits_digitsOf, Quantity.exponentBound]
    have hbound : UInt32.size / 2 = 2147483648 := rfl
    omega

/-- The numeral of a number spells its shortest decimal, perhaps with zeros behind it. -/
theorem exists_spells {x : Float} (hm : (Binary64.magnitude x).significand ≠ 0) {d : Decimal}
    (hd : (Binary64.magnitude x).shortest .toEven = d) (hdigits : d.digits ≤ 10 ^ 17)
    (hlow : -324 ≤ d.exponent) (hhigh : d.exponent ≤ 308) :
    ∃ e, (stored.numeral x).Spells (Binary64.isNegative x) e ∧ e.value = d.value ∧
      e.digits ≤ 10 ^ 17 ∧ (e = d ∨ e.exponent = -1) := by
  unfold numeral
  extract_lets negative m d' exponent
  obtain rfl : d' = d := hd
  rw [if_neg hm]
  split
  · rename_i hpositional
    rcases Int.lt_or_le d'.exponent 0 with hneg | hnonneg
    · exact ⟨d', spells_spellOut_of_neg negative hneg, rfl, hdigits, .inl rfl⟩
    · have hpositional : -5 ≤ exponent ∧ exponent ≤ 15 := by
        simpa [isPositional, stored] using hpositional
      refine ⟨_, spells_spellOut_of_nonneg negative hnonneg, ?_, ?_, .inr rfl⟩
      · rw [Decimal.value, Decimal.value]
        push_cast
        rw [pow_succ, zpow_neg_one, ← zpow_natCast, Int.toNat_of_nonneg hnonneg]
        field_simp
      · have hpower : (digitsOf d'.digits).length + (d'.exponent.toNat + 1) ≤ 17 := by
          unfold exponent at hpositional
          omega
        calc d'.digits * 10 ^ (d'.exponent.toNat + 1)
            ≤ 10 ^ (digitsOf d'.digits).length * 10 ^ (d'.exponent.toNat + 1) :=
              Nat.mul_le_mul_right _ (lt_pow_length_digitsOf _).le
          _ = 10 ^ ((digitsOf d'.digits).length + (d'.exponent.toNat + 1)) := (pow_add ..).symm
          _ ≤ 10 ^ 17 := Nat.pow_le_pow_right (by decide) hpower
  · have hlong : d'.digits < 10 ^ 100 :=
      hdigits.trans_lt (Nat.pow_lt_pow_right (by decide) (by decide))
    exact ⟨d', spells_scientific negative (by omega) (by omega) hlong, rfl, hdigits, .inl rfl⟩

end NumberLayout

end RegisterMachine
