import Mathlib
import Polish.Number.Decimal

namespace Polish.Number

open Float.Model
open Float.Model.UnpackedFloat hiding unpack

-- An undefined number is a pattern with the largest exponent and something behind it.
theorem isNaN_unpack_iff {spec : Format} {b : BitVec spec.numBits} :
    (UnpackedFloat.unpack spec b).isNaN ↔ unpackExponent b = -1#_ ∧ unpackMantissa b ≠ 0#_ := by
  unfold UnpackedFloat.unpack
  by_cases he : unpackExponent b = -1#_
  case pos =>
    rw [if_pos he]
    by_cases hm : unpackMantissa b = 0#_
    case pos => rw [if_pos hm]; exact iff_of_false Bool.false_ne_true fun h => h.right hm
    case neg => rw [if_neg hm]; exact iff_of_true rfl ⟨he, hm⟩
  case neg =>
    refine iff_of_false (ne_true_of_eq_false ?_) fun h => he h.left
    rw [if_neg he]
    by_cases h0 : unpackExponent b = 0#_
    case pos =>
      rw [if_pos h0]
      by_cases hm : unpackMantissa b = 0#_
      case pos => rw [dif_pos hm]; rfl
      case neg => rw [dif_neg hm]; rfl
    case neg => rw [if_neg h0]; rfl

theorem not_isNaN_unpack_pack {spec : Format} {u : UnpackedFloat} (h : ¬u.isNaN) :
    ¬(UnpackedFloat.unpack spec (UnpackedFloat.pack spec u)).isNaN := by
  rw [isNaN_unpack_iff]
  fun_cases UnpackedFloat.pack spec u
  case case1 => exact absurd rfl h
  case case2 => simp [packedInfinity]
  case case3 => simp [packedZero]
  case case4 => simp [packedInfinity]
  case case6 => simp [Nat.pos_iff_ne_zero.mp spec.he]
  -- The exponent of a finite number stays below the largest.
  case case5 hl _ =>
    rintro ⟨he, _⟩
    have he := congrArg BitVec.toNat he
    simp only [unpackExponent_packComponents, BitVec.toNat_ofNat, BitVec.neg_one_eq_allOnes,
      BitVec.toNat_allOnes] at he
    rw [Nat.mod_eq_of_lt (by omega)] at he
    omega

theorem not_isNaN_ofRank {rank : Nat} (h : rank ≤ infinityRank) (negative : Bool) :
    ¬(ofRank negative rank).isNaN := by
  refine not_isNaN_unpack_pack ?_
  rw [isNaN_unpack_iff]
  rintro ⟨he, hm⟩
  generalize hb : (if negative then rank + signBit else rank) = bits at he hm
  have he : bits % 2 ^ 64 / 2 ^ 52 % 2 ^ 11 = 2 ^ 11 - 1 := by
    simpa [unpackExponent, Nat.shiftRight_eq_div_pow] using congrArg BitVec.toNat he
  have hm : bits % 2 ^ 52 ≠ 0 := by
    simpa [unpackMantissa] using mt BitVec.eq_of_toNat_eq hm
  have hi : infinityRank = (2 ^ 11 - 1) * 2 ^ 52 := rfl
  have hs : signBit = 2 ^ 63 := rfl
  cases negative
  case false => rw [if_neg Bool.false_ne_true] at hb; omega
  case true  => rw [if_pos rfl] at hb; omega

-- A number is its sign and its rank.
theorem ofRank_rank (x : Float) : ofRank (isNegative x) (rank x) = x := by
  have hb := x.toBits.toNat_lt
  have hn : (if isNegative x then rank x + signBit else rank x) = x.toBits.toNat := by
    have hs : signBit = 2 ^ 63 := rfl
    simp only [isNegative, rank, hs, decide_eq_true_eq]
    split <;> omega
  rw [ofRank, hn, UInt64.ofNat_toNat, Float.ofBits_toBits]

-- What is not finite has the largest exponent.
theorem unpackExponent_ne {spec : Format} {b : BitVec spec.numBits}
    (hn : ¬(UnpackedFloat.unpack spec b).isNaN) (hi : ¬(UnpackedFloat.unpack spec b).isInf) :
    unpackExponent b ≠ -1#_ := by
  intro he
  by_cases hm : unpackMantissa b = 0#_
  case pos =>
    refine hi ?_
    unfold UnpackedFloat.unpack
    rw [if_pos he, if_pos hm]
    rfl
  case neg => exact hn (isNaN_unpack_iff.mpr ⟨he, hm⟩)

theorem rank_lt_infinityRank {x : Float} (hn : ¬x.isNaN) (hi : ¬x.isInf) : rank x < infinityRank := by
  have he : x.toBits.toNat / 2 ^ 52 % 2 ^ 11 ≠ 2 ^ 11 - 1 := by
    refine fun h => unpackExponent_ne hn hi (BitVec.eq_of_toNat_eq ?_)
    simpa [unpackExponent, Nat.shiftRight_eq_div_pow, Float.toBits] using h
  have hs : signBit = 2 ^ 63 := rfl
  have hf : infinityRank = (2 ^ 11 - 1) * 2 ^ 52 := rfl
  rw [rank, hs, hf]
  omega

theorem isFinite_iff (x : Float) : x.isFinite ↔ ¬x.isNaN ∧ ¬x.isInf := by
  rw [Float.isFinite, Float.isNaN, Float.isInf]
  rw [Float.Model.isFinite, Float.Model.isNaN, Float.Model.isInf]
  cases x.toModel.unpack <;> simp [UnpackedFloat.isFinite, UnpackedFloat.isNaN, UnpackedFloat.isInf]

theorem Decimal.rank_le (d : Decimal) : d.rank ≤ infinityRank := by
  fun_cases Decimal.rank d
  case case1 => exact Nat.zero_le _
  case case2 => exact Nat.le_refl _
  case case3 => exact Nat.zero_le _
  case case4 => exact Nat.min_le_left ..

end Polish.Number
