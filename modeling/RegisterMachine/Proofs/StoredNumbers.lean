import RegisterMachine.Proofs.NumeralValues
import RegisterMachine.Proofs.Scaling
import RegisterMachine.Proofs.SignedRanks
import RegisterMachine.Proofs.StoredChunks

/-!
# Stored numbers are nearly read back

The numeral of a stored number identifies it, but the reader rounds twice and can read another
number. The number that is read has the same sign and lies at most two places from the stored one
(`Binary64.exists_isReadAs`); it is the stored one if the digits fit the significand and the power
of ten is exact. The zero behind the point is one of the digits, so whole numbers with up to
fourteen digits come back, and `9007199254740991.0` does not. All other parts of a chunk come back
as they are (`Chunk.stored_numbers_nearly_read_back`).

Near the infinity the bound does not tell whether a number is read at all. Only two numbers are as
near as that, and both are read.
-/

namespace RegisterMachine

-- A power of natural numbers means the same beside any other notion of powers.
attribute [local instance (2000)] instPowNat

namespace Binary64

open Float.Model Float.Model.UnpackedFloat

/-! ### Shortest decimals -/

theorem rankValue_infinityRank : rankValue infinityRank = 2 ^ 1024 := by
  have hrank : infinityRank = 2046 * fractionBound + fractionBound := by decide
  have hbound : (fractionBound : ℚ) = 2 ^ (52 : Int) := by norm_num [fractionBound]
  rw [hrank, rankValue_eq 2046 (.inr le_rfl) (by decide), hbound, ← zpow_add₀ (by norm_num)]
  exact zpow_natCast 2 1024

section

variable {d : Decimal} {r : Nat}

theorem digits_pos_of_isRankOf (hr : 0 < r) (h : IsRankOf d.value r) : 0 < d.digits := by
  obtain ⟨s, rfl⟩ : ∃ s, r = s + 1 := ⟨r - 1, by omega⟩
  have hvalue : 0 < d.value := by
    refine lt_of_lt_of_le ?_ (h.middle_le s rfl)
    rw [middle]
    linarith [gap_pos s, rankValue_nonneg s]
  rw [Nat.pos_iff_ne_zero]
  intro hzero
  rw [Decimal.value, hzero, Nat.cast_zero, zero_mul] at hvalue
  exact hvalue.false

theorem exponent_le_of_isRankOf (hr : 0 < r) (hfinite : r < infinityRank)
    (h : IsRankOf d.value r) : d.exponent ≤ 308 := by
  have hdigits : (1 : ℚ) ≤ d.digits := by exact_mod_cast digits_pos_of_isRankOf hr h
  have hmiddle : middle r < rankValue (r + 1) := by
    rw [middle, rankValue_succ]
    linarith [gap_pos r]
  have hpow : (2 : ℚ) ^ 1024 < 10 ^ (309 : Int) := by
    have hpow : 2 ^ 1024 < 10 ^ 309 := by decide +kernel
    exact_mod_cast hpow
  have hlt : (10 : ℚ) ^ d.exponent < 10 ^ (309 : Int) :=
    calc (10 : ℚ) ^ d.exponent ≤ d.value :=
          le_mul_of_one_le_left (zpow_pos (by norm_num) _).le hdigits
      _ ≤ middle r := h.le_middle
      _ < rankValue (r + 1) := hmiddle
      _ ≤ rankValue infinityRank := strictMono_rankValue.monotone hfinite
      _ = 2 ^ 1024 := rankValue_infinityRank
      _ < 10 ^ (309 : Int) := hpow
  exact Int.lt_add_one_iff.1 ((zpow_lt_zpow_iff_right₀ (by norm_num)).1 hlt)

end

end Binary64

/-- Seventeen digits do not reach a large power of ten with a point in front of the last one. -/
theorem Decimal.eq_of_value_eq {d e : Decimal} (hvalue : e.value = d.value)
    (hdigits : e.digits ≤ 10 ^ 17) (h : e = d ∨ e.exponent = -1) (hd : 0 < d.digits)
    (hexponent : 17 ≤ d.exponent) : e = d := by
  refine h.resolve_right fun hpoint => ?_
  have hd : (1 : ℚ) ≤ d.digits := by exact_mod_cast hd
  have hdigits : (e.digits : ℚ) ≤ 100000000000000000 := by exact_mod_cast hdigits
  have hlarge : (10 : ℚ) ^ (17 : Int) ≤ d.value :=
    calc (10 : ℚ) ^ (17 : Int) ≤ 10 ^ d.exponent := zpow_le_zpow_right₀ (by norm_num) hexponent
      _ ≤ d.value := le_mul_of_one_le_left (zpow_pos (by norm_num) _).le hd
  rw [← hvalue, value, hpoint] at hlarge
  norm_num at hlarge
  linarith

namespace Binary64

open Json Json.Quantity

/-! ### The two largest numbers -/

theorem shortest_largest :
    (magnitudeOfRank (infinityRank - 1)).shortest .toEven = ⟨17976931348623157, 292⟩ ∧
      (magnitudeOfRank (infinityRank - 2)).shortest .toEven = ⟨17976931348623155, 292⟩ := by
  decide +kernel

theorem scale?_largest : ∀ s, s = 17976931348623157 ∨ s = 17976931348623155 →
    scale? (rounded s) 292 = some (ofRank (infinityRank - 1)) := by
  have hproduct : ∀ s, s = 17976931348623157 ∨ s = 17976931348623155 →
      rounded s * powerOfTen 292 = ofRank (infinityRank - 1) := by
    rintro s (rfl | rfl) <;> decide +kernel
  intro s hs
  have hfinite := isFinite_ofRank (by decide : infinityRank - 1 < infinityRank)
  rw [← hproduct s hs] at hfinite ⊢
  exact scale?_natCast (k := 292) (by decide) hfinite

/-- What a numeral spells of a number is scaled to a number that is not beyond the largest one. -/
theorem exists_isScaled_of_shortest {r : Nat} (hr : 0 < r) (hfinite : r < infinityRank)
    {d e : Decimal} (hd : (magnitudeOfRank r).shortest .toEven = d) (hvalue : e.value = d.value)
    (hdigits : e.digits ≤ 10 ^ 17) (h : e = d ∨ e.exponent = -1) :
    ∃ t, t < infinityRank ∧ IsScaled e.digits e.exponent r t := by
  obtain ⟨hrank, -, hlow⟩ := isRankOf_shortest hr hfinite .toEven
  rw [hd] at hrank hlow
  have hhigh := exponent_le_of_isRankOf hr hfinite hrank
  have hrank' : IsRankOf e.value r := hvalue ▸ hrank
  have hexponent : -324 ≤ e.exponent ∧ e.exponent ≤ 308 := by
    rcases h with rfl | hpoint
    · exact ⟨hlow, hhigh⟩
    · omega
  rcases Nat.lt_or_ge (r + 2) infinityRank with hsmall | hlarge
  · obtain ⟨t, ht⟩ := exists_isScaled (digits_pos_of_isRankOf hr hrank') hdigits (by omega)
      (by omega) hrank'
    exact ⟨t, ht.ge.trans_lt hsmall, ht⟩
  · -- two places on there is the infinity, so the two numbers are computed
    obtain ⟨s, hs, rfl⟩ : ∃ s, (s = 17976931348623157 ∨ s = 17976931348623155) ∧ d = ⟨s, 292⟩ := by
      obtain ⟨hlast, hlast'⟩ := shortest_largest
      rcases (by omega : r = infinityRank - 1 ∨ r = infinityRank - 2) with rfl | rfl
      · exact ⟨_, .inl rfl, hd.symm.trans hlast⟩
      · exact ⟨_, .inr rfl, hd.symm.trans hlast'⟩
    have hpos : 0 < s := by omega
    obtain rfl := Decimal.eq_of_value_eq hvalue hdigits h hpos (by decide : (17 : Int) ≤ 292)
    refine ⟨infinityRank - 1, by decide, by omega, by omega, fun hs' => ?_,
      fun _ => scale?_largest s hs⟩
    dsimp only at hs'
    omega

/-! ### Numbers that are read -/

/-- What is known of the rank that is read of the numeral of a number. -/
structure IsReadAs (x : Float) (t : Nat) : Prop where
  finite : t < infinityRank
  le : rankOf x ≤ t + 2
  ge : t ≤ rankOf x + 2
  exact : (NumberLayout.stored.numeral x).significand ≤ 2 ^ 53 →
    (NumberLayout.stored.numeral x).power.natAbs ≤ 22 → t = rankOf x
  quantity : (NumberLayout.stored.numeral x).quantity? = some (.real (signed (isNegative x) t))

theorem isReadAs_of_zero {x : Float} (hx : rankOf x = 0) : IsReadAs x 0 := by
  have hzero : (magnitude x).significand = 0 := by
    rw [magnitude_eq, hx]
    rfl
  refine ⟨by decide, by omega, by omega, fun _ _ => hx.symm, ?_⟩
  rw [NumberLayout.numeral]
  dsimp only
  rw [if_pos hzero]
  change (scale? (rounded 0) (-1)).map _ = _
  rw [scale?]
  cases isNegative x <;> rfl

/-- Every number that is not zero is scaled to a rank near its own one. -/
theorem exists_isReadAs_of_pos {x : Float} (hx : isFinite x = true) (hpos : 0 < rankOf x) :
    ∃ t, IsReadAs x t := by
  have hfinite := (isFinite_iff x).1 hx
  obtain ⟨hm, -⟩ := magnitudeOfRank_bounds hpos hfinite
  obtain ⟨hrank, hdigits, hlow⟩ := isRankOf_shortest hpos hfinite .toEven
  obtain ⟨e, hspells, hvalue, hdigits', hcases⟩ :=
    NumberLayout.exists_spells (x := x) (magnitude_eq x ▸ hm.ne') (magnitude_eq x ▸ rfl) hdigits
      hlow (exponent_le_of_isRankOf hpos hfinite hrank)
  obtain ⟨t, htfinite, ht⟩ := exists_isScaled_of_shortest hpos hfinite rfl hvalue hdigits' hcases
  refine ⟨t, htfinite, ht.le, ht.ge, fun hs hk => ?_, ?_⟩
  · rw [hspells.significand] at hs
    rw [hspells.power] at hk
    exact ht.exact hs hk
  · rw [hspells.quantity?_eq (hdigits'.trans_lt (by decide)), ht.eq_some htfinite]
    rfl

/-- What is read of the numeral of a finite number is a number again, with its sign. -/
theorem exists_isReadAs {x : Float} (hx : isFinite x = true) : ∃ t, IsReadAs x t := by
  rcases Nat.eq_zero_or_pos (rankOf x) with hzero | hpos
  · exact ⟨0, isReadAs_of_zero hzero⟩
  · exact exists_isReadAs_of_pos hx hpos

/-- The number that is read of the numeral which is stored for a number. -/
def reread (x : Float) : Float :=
  ((NumberLayout.stored.numeral x).quantity?.map Quantity.toFloat).getD x

theorem IsReadAs.reread_eq {x : Float} {t : Nat} (h : IsReadAs x t) :
    reread x = signed (isNegative x) t := by
  rw [reread, h.quantity]
  rfl

/-- How the number that is read differs from the stored one. -/
structure IsNearlyReread (x y : Float) : Prop where
  finite : isFinite y = true
  sign : isNegative y = isNegative x
  le : x.toBits.toNat ≤ y.toBits.toNat + 2
  ge : y.toBits.toNat ≤ x.toBits.toNat + 2
  /-- the digits, the zero behind a point included, fit the significand and the power is exact -/
  exact : (NumberLayout.stored.numeral x).significand ≤ 2 ^ 53 →
    (NumberLayout.stored.numeral x).power.natAbs ≤ 22 → y = x

theorem isNearlyReread_reread {x : Float} (hx : isFinite x = true) :
    IsNearlyReread x (reread x) := by
  obtain ⟨t, ht⟩ := exists_isReadAs hx
  have hbits := toNat_toBits_signed (isNegative x) ht.finite
  have hbits' := toNat_toBits_eq x
  have hle := ht.le
  have hge := ht.ge
  rw [ht.reread_eq]
  refine ⟨?_, isNegative_signed _ ht.finite, by omega, by omega, fun hdigits hpower => ?_⟩
  · rw [isFinite_iff, rankOf_signed _ ht.finite]
    exact ht.finite
  · rw [ht.exact hdigits hpower, ← eq_signed hx]

end Binary64

namespace Constant

open Json

/-- What a number constant is read as after it was stored. A number that is not finite is stored as
nil. -/
def reread (x : Float) : Constant :=
  if Binary64.isFinite x then .number (Binary64.reread x) else .nil

theorem numberIsReadAs_reread (x : Float) : NumberIsReadAs x (reread x) := by
  intro levels
  rw [reread, toJson]
  split
  · rename_i hfinite
    obtain ⟨t, ht⟩ := Binary64.exists_isReadAs hfinite
    rw [ofJson, readFloat, ht.quantity, ht.reread_eq]
    rfl
  · rfl

end Constant

namespace Chunk

/-- **Stored numbers are nearly read back.** A chunk with functions nested at most 62 deep comes
back as it was, but for its numbers, so it is the same chunk just if each of them is read as itself.
A finite number is read as a finite number with its sign, at most two places from it, and as itself
if its digits are at most `2 ^ 53` and its power of ten is exact. All other numbers are read as
nil. -/
theorem stored_numbers_nearly_read_back (c : Chunk) (hheight : c.height ≤ 62) :
    ofText c.toText = .ok (c.mapNumbers Constant.reread) ∧
    (ofText c.toText = .ok c ↔ ∀ x ∈ c.numbers, Constant.reread x = .number x) ∧
    (∀ x ∈ c.numbers, Binary64.isFinite x = true →
      Constant.reread x = .number (Binary64.reread x) ∧
        Binary64.IsNearlyReread x (Binary64.reread x)) ∧
    ∀ x ∈ c.numbers, Binary64.isFinite x = false → Constant.reread x = .nil := by
  have hread : ofText c.toText = .ok (c.mapNumbers Constant.reread) := by
    have hlevels : 2 * c.height + 4 ≤ Json.depthLimit := by
      rw [Json.depthLimit]
      omega
    rw [ofText, toText, Json.decode_pretty (isWhole_toJson c)]
    exact ofJson_toJson_mapNumbers c Json.depthLimit hlevels
      fun x _ => Constant.numberIsReadAs_reread x
  refine ⟨hread, ?_, fun x _ hx => ?_, fun x _ hx => ?_⟩
  · rw [hread, Except.ok.injEq]
    exact mapNumbers_eq_self_iff c
  · exact ⟨if_pos hx, Binary64.isNearlyReread_reread hx⟩
  · exact if_neg (Bool.eq_false_iff.1 hx)

/-- Two numbers of which the first one comes back, and the other one, the largest odd number, as the
even number below it. -/
def approximated : Chunk :=
  { empty "approximated" with constants := #[.number 0.1, .number 9007199254740991] }

theorem approximated_reads_back :
    approximated.height ≤ 62 ∧
      ofText approximated.toText = .ok { approximated with
        constants := #[.number 0.1, .number 9007199254740990] } := by
  have hfirst : Binary64.reread 0.1 = 0.1 := by decide +kernel
  have hsecond : Binary64.reread 9007199254740991 = 9007199254740990 := by decide +kernel
  have hconstants : #[Constant.number 0.1, .number 9007199254740991].map
      (Constant.mapNumber Constant.reread) =
        #[.number 0.1, .number 9007199254740990] := by
    have hfinite : Binary64.isFinite 0.1 = true := rfl
    have hfinite' : Binary64.isFinite 9007199254740991 = true := rfl
    simp only [List.map_toArray, List.map_cons, List.map_nil, Constant.mapNumber, Constant.reread,
      hfinite, hfinite', if_true, hfirst, hsecond]
  have hheight : approximated.height ≤ 62 := by decide
  refine ⟨hheight, (stored_numbers_nearly_read_back approximated hheight).1.trans ?_⟩
  rw [approximated, empty, mapNumbers, hconstants]
  rfl

end Chunk

end RegisterMachine
