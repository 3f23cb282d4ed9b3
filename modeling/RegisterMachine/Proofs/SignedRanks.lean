import RegisterMachine.Proofs.Rounding

/-!
# Numbers with signs

The sign of a binary64 number is a bit of its own beside its rank. A finite number is known by the
two (`Binary64.eq_signed`), and they are read back from the number that is made of them.
-/

namespace RegisterMachine

-- A power of natural numbers means the same beside any other notion of powers.
attribute [local instance (2000)] instPowNat

namespace Binary64

open Float.Model Float.Model.UnpackedFloat

def rankOf (x : Float) : Nat := x.toBits.toNat % 0x8000000000000000

def signed (negative : Bool) (r : Nat) : Float := if negative then -ofRank r else ofRank r

/-- What the sign bit adds to the bits of a number. -/
def signWeight (negative : Bool) : Nat := if negative then 0x8000000000000000 else 0

theorem toNat_toBits_eq (x : Float) :
    x.toBits.toNat = signWeight (isNegative x) + rankOf x := by
  have hlt := x.toBits.toNat_lt
  rw [signWeight, isNegative, rankOf]
  split
  · rename_i hnegative
    have hnegative := of_decide_eq_true hnegative
    omega
  · rename_i hnegative
    have hnegative := of_decide_eq_false (Bool.eq_false_iff.2 hnegative)
    omega

theorem exponentField_eq (x : Float) : exponentField x = rankOf x / fractionBound := by
  rw [exponentField, rankOf, fractionBound]
  omega

theorem fractionField_eq (x : Float) : fractionField x = rankOf x % fractionBound := by
  rw [fractionField, rankOf, fractionBound]
  omega

theorem magnitude_eq (x : Float) : magnitude x = magnitudeOfRank (rankOf x) := by
  rw [magnitude, exponentField_eq, fractionField_eq, magnitudeOfRank]

theorem isFinite_iff (x : Float) : isFinite x = true ↔ rankOf x < infinityRank := by
  have hlt : rankOf x < 0x8000000000000000 := Nat.mod_lt _ (by decide)
  rw [isFinite, bne_iff_ne, exponentField_eq, infinityRank, fractionBound]
  omega

theorem toNat_packComponents_negative (e : BitVec 11) (f : BitVec 52) :
    (packComponents Format.binary64 .negative e f).toNat =
      0x8000000000000000 + (packComponents Format.binary64 .positive e f).toNat := by
  have hsign : (Sign.negative.toBitVec ++ e).toNat = 2 ^ 11 + e.toNat := by
    rw [BitVec.toNat_append, ← Nat.shiftLeft_add_eq_or_of_lt e.isLt]
    rfl
  rw [toNat_packComponents, packComponents, BitVec.toNat_append, hsign,
    ← Nat.shiftLeft_add_eq_or_of_lt f.isLt, Nat.shiftLeft_eq]
  rw [fractionBound]
  ring

theorem toNat_pack_negative (m : Nat) (e : Int) (hm : 0 < m) :
    (UnpackedFloat.pack Format.binary64 (.finite .negative m e hm)).toNat =
      0x8000000000000000 +
        (UnpackedFloat.pack Format.binary64 (.finite .positive m e hm)).toNat := by
  rw [UnpackedFloat.pack, UnpackedFloat.pack]
  dsimp only
  split
  · exact toNat_packComponents_negative _ _
  · split
    · exact toNat_packComponents_negative _ _
    · exact toNat_packComponents_negative _ _

theorem toNat_toBits_signed {r : Nat} (negative : Bool) (h : r < infinityRank) :
    (signed negative r).toBits.toNat = signWeight negative + r := by
  cases negative with
  | false =>
    rw [signed, if_neg Bool.false_ne_true, toNat_toBits_ofRank, Nat.min_eq_left h.le, signWeight,
      if_neg Bool.false_ne_true, Nat.zero_add]
  | true =>
    rcases Nat.eq_zero_or_pos r with rfl | hpos
    · rfl
    · obtain ⟨c, m, rfl, hm, hlow, hhigh⟩ := exists_binade_of_pos hpos
      have hpack := toNat_pack c hm hlow hhigh
      rw [Nat.min_eq_left h.le] at hpack
      change (UnpackedFloat.pack Format.binary64
        (UnpackedFloat.neg (ofRank (c * fractionBound + m)).toModel.unpack)).toNat = _
      rw [unpack_ofRank c hm hlow hhigh h, ← hpack]
      exact toNat_pack_negative m _ hm

theorem rankOf_signed {r : Nat} (negative : Bool) (h : r < infinityRank) :
    rankOf (signed negative r) = r := by
  have hr : r < 0x8000000000000000 := h.trans (by decide)
  rw [rankOf, toNat_toBits_signed negative h, signWeight]
  split <;> omega

theorem isNegative_signed {r : Nat} (negative : Bool) (h : r < infinityRank) :
    isNegative (signed negative r) = negative := by
  have hr : r < 0x8000000000000000 := h.trans (by decide)
  rw [isNegative, toNat_toBits_signed negative h, signWeight]
  cases negative
  · exact decide_eq_false (by simpa using hr)
  · exact decide_eq_true (Nat.le_add_right _ _)

theorem eq_signed {x : Float} (h : isFinite x = true) : x = signed (isNegative x) (rankOf x) := by
  rw [← Float.toBits_inj, ← UInt64.toNat_inj, toNat_toBits_eq,
    toNat_toBits_signed _ ((isFinite_iff x).1 h)]

end Binary64

end RegisterMachine
