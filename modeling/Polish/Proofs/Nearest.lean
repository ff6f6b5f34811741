import Mathlib.Algebra.Ring.Nat
import Polish.Number.Shortest

namespace Polish.Number

theorem groupSize_pos : 0 < groupSize := by
  decide

-- A group after the first goes up in steps twice as long as the one before. Its first rank can be
-- counted as the one after the last of the group below.
theorem steps_group {k m : Nat} (hm : m ≤ 2 * groupSize) (hk : k = 0 ∨ groupSize ≤ m) :
    steps (k * groupSize + m) = m * 2 ^ k := by
  by_cases hs : m < groupSize
  case pos =>
    obtain rfl : k = 0 := by omega
    simp [steps, hs]
  case neg =>
    have hn : ¬k * groupSize + m < groupSize := by omega
    rw [steps, if_neg hn, Nat.shiftLeft_eq]
    by_cases hl : m = 2 * groupSize
    case pos =>
      have he : k * groupSize + m = (k + 2) * groupSize := by rw [hl, Nat.add_mul]
      rw [he, Nat.mul_mod_left, Nat.mul_div_cancel _ groupSize_pos, hl]
      rw [Nat.add_sub_cancel (m := 1) (n := k + 1), Nat.pow_succ]
      grind
    case neg =>
      have he : k * groupSize + m = (m - groupSize) + (k + 1) * groupSize := by
        rw [Nat.add_mul]; omega
      have hl : m - groupSize < groupSize := by omega
      rw [he, Nat.add_mul_mod_self_right, Nat.mod_eq_of_lt hl,
        Nat.add_mul_div_right _ _ groupSize_pos, Nat.div_eq_of_lt hl, Nat.zero_add,
        Nat.add_sub_cancel, Nat.sub_add_cancel (by omega)]

theorem exists_group (r : Nat) :
    ∃ k m, r = k * groupSize + m ∧ m < 2 * groupSize ∧ (k = 0 ∨ groupSize ≤ m) := by
  by_cases h : r < groupSize
  case pos => exact ⟨0, r, by omega, by omega, .inl rfl⟩
  case neg =>
    have hd : 0 < r / groupSize := Nat.div_pos (by omega) groupSize_pos
    have hm := Nat.mod_lt r groupSize_pos
    refine ⟨r / groupSize - 1, r % groupSize + groupSize, ?_, by omega, .inr (by omega)⟩
    have := Nat.div_add_mod' r groupSize
    have := Nat.sub_one_mul (r / groupSize) groupSize
    have := Nat.le_mul_of_pos_left groupSize hd
    omega

theorem steps_lt_succ (r : Nat) : steps r < steps (r + 1) := by
  obtain ⟨k, m, rfl, hm, hk⟩ := exists_group r
  rw [steps_group (by omega) hk, Nat.add_assoc, steps_group hm (by omega)]
  exact Nat.mul_lt_mul_of_pos_right (by omega) (Nat.two_pow_pos k)

theorem steps_le {r n : Nat} (h : r ≤ n) : steps r ≤ steps n := by
  induction h
  case refl      => exact Nat.le_refl _
  case step n _ hi => exact Nat.le_trans hi (Nat.le_of_lt (steps_lt_succ n))

theorem steps_lt {r n : Nat} (h : r < n) : steps r < steps n :=
  Nat.lt_of_lt_of_le (steps_lt_succ r) (steps_le h)

section Reading

variable {r n a b : Nat}

-- An odd rank does not have the ends of its interval.
theorem readsAs_iff :
    readsAs r a b ↔
      (steps (r - 1) + steps r) * b ≤ 2 * a ∧ 2 * a ≤ (steps r + steps (r + 1)) * b ∧
        (r % 2 = 1 →
          (steps (r - 1) + steps r) * b < 2 * a ∧ 2 * a < (steps r + steps (r + 1)) * b) := by
  simp only [readsAs]
  split
  case isTrue h  => grind
  case isFalse h => grind

-- Everything is read as one magnitude at most: the interval of a larger one begins where that of a
-- smaller one ends or after it, and where they meet, one of the two is odd.
theorem not_readsAs_of_lt (hb : 0 < b) (h : r < n) (hr : readsAs r a b) (hn : readsAs n a b) :
    False := by
  obtain ⟨_, hr, hro⟩ := readsAs_iff.mp hr
  obtain ⟨hn, _, hno⟩ := readsAs_iff.mp hn
  have hs : steps r + steps (r + 1) ≤ steps (n - 1) + steps n :=
    Nat.add_le_add (steps_le (by omega)) (steps_le h)
  have hm := Nat.mul_le_mul_right b hs
  by_cases hd : r + 1 < n
  case pos =>
    have hs : steps r + steps (r + 1) < steps (n - 1) + steps n :=
      Nat.add_lt_add_of_lt_of_le (steps_lt (by omega)) (steps_le h)
    have hm := Nat.mul_lt_mul_of_pos_right hs hb
    omega
  case neg => omega

theorem readsAs_unique (hb : 0 < b) (hr : readsAs r a b) (hn : readsAs n a b) : r = n := by
  obtain h | h | h := Nat.lt_trichotomy r n
  · exact (not_readsAs_of_lt hb h hr hn).elim
  · exact h
  · exact (not_readsAs_of_lt hb h hn hr).elim

-- A magnitude is read as itself.
theorem readsAs_steps (hb : 0 < b) : readsAs r (steps r * b) b := by
  have hs : (steps (r - 1) + steps r) * b ≤ 2 * (steps r * b) := by
    rw [← Nat.mul_assoc]
    have := steps_le (Nat.sub_le r 1)
    exact Nat.mul_le_mul_right b (by omega)
  have hl : 2 * (steps r * b) < (steps r + steps (r + 1)) * b := by
    rw [← Nat.mul_assoc]
    have := steps_lt_succ r
    exact Nat.mul_lt_mul_of_pos_right (by omega) hb
  refine readsAs_iff.mpr ⟨hs, Nat.le_of_lt hl, fun ho => ⟨?_, hl⟩⟩
  rw [← Nat.mul_assoc]
  have := steps_lt (Nat.sub_lt (n := r) (m := 1) (by omega) (by decide))
  exact Nat.mul_lt_mul_of_pos_right (by omega) hb

-- A half is rounded to the even side.
theorem roundDiv_spec (hb : 0 < b) :
    2 * (roundDiv a b * b) ≤ 2 * a + b ∧ 2 * a ≤ 2 * (roundDiv a b * b) + b ∧
      (roundDiv a b % 2 = 1 →
        2 * (roundDiv a b * b) < 2 * a + b ∧ 2 * a < 2 * (roundDiv a b * b) + b) := by
  have hd := Nat.div_add_mod' a b
  have hm := Nat.mod_lt a hb
  fun_cases roundDiv a b
  case case1 h => omega
  case case2 h =>
    rw [Nat.add_mul, Nat.one_mul]
    omega

theorem mod_two_group {k m : Nat} (h : r = k * groupSize + m) : r % 2 = m % 2 := by
  have hg : groupSize = 4503599627370496 := rfl
  rw [h, hg]
  omega

-- The quotients that keep 53 bits, or fewer in the first group, when `k` bits are dropped.
structure Fits (k a b : Nat) : Prop where
  below : k = 0 ∨ groupSize * (b * 2 ^ k) ≤ a
  above : a < 2 * (groupSize * (b * 2 ^ k))

namespace Fits

variable {k : Nat}

theorem roundDiv_le (h : Fits k a b) (hb : 0 < b) : roundDiv a (b * 2 ^ k) ≤ 2 * groupSize := by
  have hp : 0 < b * 2 ^ k := Nat.mul_pos hb (Nat.two_pow_pos k)
  have hl := (roundDiv_spec (a := a) hp).left
  have ha := h.above
  have hs : (2 * roundDiv a (b * 2 ^ k)) * (b * 2 ^ k) < (4 * groupSize + 1) * (b * 2 ^ k) := by
    rw [Nat.add_mul, Nat.mul_assoc, Nat.mul_assoc]
    omega
  have := Nat.lt_of_mul_lt_mul_right hs
  omega

theorem le_roundDiv (h : Fits k a b) (hb : 0 < b) : k = 0 ∨ groupSize ≤ roundDiv a (b * 2 ^ k) := by
  refine h.below.imp_right fun ha => ?_
  have hp : 0 < b * 2 ^ k := Nat.mul_pos hb (Nat.two_pow_pos k)
  have hu := (roundDiv_spec (a := a) hp).right.left
  have hs : (2 * groupSize) * (b * 2 ^ k) ≤ (2 * roundDiv a (b * 2 ^ k) + 1) * (b * 2 ^ k) := by
    rw [Nat.add_mul, Nat.mul_assoc, Nat.mul_assoc]
    omega
  have := Nat.le_of_mul_le_mul_right hs hp
  omega

theorem steps_mul (h : Fits k a b) (hb : 0 < b) :
    steps (k * groupSize + roundDiv a (b * 2 ^ k)) * b = roundDiv a (b * 2 ^ k) * (b * 2 ^ k) := by
  rw [steps_group (h.roundDiv_le hb) (h.le_roundDiv hb), Nat.mul_assoc, Nat.mul_comm (2 ^ k)]

-- What is half a step or less below a magnitude is in its interval. At the first of a group, where
-- the neighbour below is nearer, there is nothing below.
theorem lower (h : Fits k a b) (hb : 0 < b) (hr : r = k * groupSize + roundDiv a (b * 2 ^ k)) :
    (steps (r - 1) + steps r) * b ≤ 2 * a ∧ (r % 2 = 1 → (steps (r - 1) + steps r) * b < 2 * a) := by
  have ⟨hl, _, ho⟩ := roundDiv_spec (a := a) (Nat.mul_pos hb (Nat.two_pow_pos k))
  have hs := h.steps_mul hb
  have hm := h.roundDiv_le hb
  have hk := h.le_roundDiv hb
  rw [← hr] at hs
  generalize roundDiv a (b * 2 ^ k) = m at *
  rw [Nat.add_mul, hs]
  by_cases hf : k ≠ 0 ∧ m = groupSize
  case pos =>
    have hd : r - 1 < r := Nat.sub_lt (by have := groupSize_pos; omega) Nat.one_pos
    have hd := Nat.mul_lt_mul_of_pos_right (steps_lt hd) hb
    have ha := h.below.resolve_left hf.left
    rw [hf.right] at hs ⊢
    omega
  case neg =>
    by_cases h0 : m = 0
    case pos =>
      have hg := groupSize_pos
      obtain rfl : k = 0 := hk.resolve_right (by omega)
      obtain rfl : r = 0 := by omega
      simp [h0, steps_zero]
    case neg =>
      have hp : r - 1 = k * groupSize + (m - 1) := by omega
      have hs : steps (r - 1) * b + b * 2 ^ k = m * (b * 2 ^ k) := by
        rw [hp, steps_group (by omega) (by omega), Nat.mul_assoc, Nat.mul_comm (2 ^ k), ← Nat.succ_mul]
        congr
        omega
      have ho' : r % 2 = m % 2 := mod_two_group hr
      omega

theorem upper (h : Fits k a b) (hb : 0 < b) (hr : r = k * groupSize + roundDiv a (b * 2 ^ k)) :
    2 * a ≤ (steps r + steps (r + 1)) * b ∧ (r % 2 = 1 → 2 * a < (steps r + steps (r + 1)) * b) := by
  have ⟨_, hl, ho⟩ := roundDiv_spec (a := a) (Nat.mul_pos hb (Nat.two_pow_pos k))
  have hs := h.steps_mul hb
  have hm := h.roundDiv_le hb
  have hk := h.le_roundDiv hb
  rw [← hr] at hs
  generalize roundDiv a (b * 2 ^ k) = m at *
  rw [Nat.add_mul, hs]
  by_cases hf : m = 2 * groupSize
  case pos =>
    have hd := Nat.mul_lt_mul_of_pos_right (steps_lt_succ r) hb
    have ha := h.above
    rw [hf, Nat.mul_assoc] at hs ⊢
    omega
  case neg =>
    have hs : steps (r + 1) * b = m * (b * 2 ^ k) + b * 2 ^ k := by
      rw [hr, Nat.add_assoc, steps_group (by omega) (by omega), Nat.mul_assoc, Nat.mul_comm (2 ^ k),
        Nat.succ_mul]
    have ho' : r % 2 = m % 2 := mod_two_group hr
    omega

theorem readsAs (h : Fits k a b) (hb : 0 < b) :
    readsAs (k * groupSize + roundDiv a (b * 2 ^ k)) a b := by
  have ⟨hl, hlo⟩ := h.lower hb rfl
  have ⟨hu, huo⟩ := h.upper hb rfl
  exact readsAs_iff.mpr ⟨hl, hu, fun ho => ⟨hlo ho, huo ho⟩⟩

end Fits

theorem fits_log2 (hb : 0 < b) : Fits ((a / b).log2 - 52) a b := by
  have hg : groupSize = 2 ^ 52 := rfl
  have hh : a / b < 2 ^ ((a / b).log2 + 1) := Nat.lt_log2_self
  have ha : a < 2 ^ ((a / b).log2 + 1) * b := (Nat.div_lt_iff_lt_mul hb).mp hh
  constructor
  case below =>
    by_cases hk : (a / b).log2 ≤ 52
    case pos => exact .inl (by omega)
    case neg =>
      have hn : a / b ≠ 0 := by rintro h; simp [h] at hk
      have hl : 2 ^ (a / b).log2 * b ≤ a := (Nat.le_div_iff_mul_le hb).mp (Nat.log2_self_le hn)
      refine .inr (Nat.le_trans (Nat.le_of_eq ?_) hl)
      rw [hg, Nat.mul_comm b, ← Nat.mul_assoc, ← Nat.pow_add]
      congr 2
      omega
  case above =>
    refine Nat.lt_of_lt_of_le ha ?_
    rw [hg, Nat.mul_comm b, ← Nat.mul_assoc, ← Nat.mul_assoc, ← Nat.pow_succ', ← Nat.pow_add]
    exact Nat.mul_le_mul_right b (Nat.pow_le_pow_right Nat.two_pos (by omega))

-- The nearest magnitude is the one that a quotient is read as.
theorem nearestRank_of_readsAs (hb : 0 < b) (h : readsAs r a b) (hr : r ≤ infinityRank) :
    nearestRank a b = r := by
  have hn := (fits_log2 (a := a) hb).readsAs hb
  rw [nearestRank, Nat.shiftLeft_eq, readsAs_unique hb hn h]
  exact Nat.min_eq_right hr

end Reading

theorem steps_infinityRank : steps infinityRank = groupSize * 2 ^ 2046 := by
  have hi : infinityRank = 2046 * groupSize + groupSize := rfl
  rw [hi, steps_group (by omega) (.inr (Nat.le_refl _))]

theorem stepsInOne_eq : stepsInOne = 2 ^ 1074 := by
  decide +kernel

namespace Decimal

variable {d : Decimal} {r : Nat}

theorem numerator_mk (c : Nat) (exponent : Int) :
    (mk c exponent).numerator = c * (mk 1 exponent).numerator := by
  rw [numerator, numerator, Nat.one_mul, Nat.mul_assoc]

theorem denominator_mk (c : Nat) (exponent : Int) :
    (mk c exponent).denominator = (mk 1 exponent).denominator :=
  rfl

theorem le_numerator {x : Nat} (h : x ≤ d.coefficient * 10 ^ d.exponent.toNat) :
    x * stepsInOne ≤ d.numerator :=
  Nat.mul_le_mul_right _ h

theorem numerator_le {x : Nat} (h : d.coefficient * 10 ^ d.exponent.toNat ≤ x) :
    d.numerator ≤ x * stepsInOne :=
  Nat.mul_le_mul_right _ h

theorem le_ten_pow {x m n : Nat} (hx : x ≤ 10 ^ m) (h : m ≤ n) : x ≤ 10 ^ n :=
  Nat.le_trans hx (Nat.pow_le_pow_right (by decide) h)

-- From 10³⁰⁹ on nothing is finite.
theorem exponent_lt_of_readsAs (h : readsAs r d.numerator d.denominator) (hr : r < infinityRank)
    (hc : d.coefficient ≠ 0) : d.exponent < 309 := by
  refine Int.not_le.mp fun he => ?_
  have hu := (readsAs_iff.mp h).right.left
  have hs : steps r + steps (r + 1) ≤ 2 * steps infinityRank := by
    rw [Nat.two_mul]
    exact Nat.add_le_add (steps_le (Nat.le_of_lt hr)) (steps_le hr)
  have hp : 2 ^ 1025 ≤ d.coefficient * 10 ^ d.exponent.toNat :=
    Nat.le_trans (le_ten_pow (m := 309) (by decide +kernel) (by omega))
      (Nat.le_mul_of_pos_left _ (Nat.pos_of_ne_zero hc))
  have hm := le_numerator hp
  have hx : groupSize * 2 ^ 2046 < 2 ^ 1025 * stepsInOne := by decide +kernel
  have hn : (-d.exponent).toNat = 0 := by omega
  rw [denominator, hn, Nat.pow_eq, Nat.pow_zero, Nat.mul_one] at hu
  rw [steps_infinityRank] at hs
  omega

-- As 10 is more than 2³, little is left of a coefficient with a large negative exponent.
theorem readsAs_zero (h : d.coefficient.log2 + 1076 ≤ -3 * d.exponent) :
    readsAs 0 d.numerator d.denominator := by
  have hc : d.coefficient * 10 ^ d.exponent.toNat ≤ 2 ^ (d.coefficient.log2 + 1) := by
    have hp : d.exponent.toNat = 0 := by omega
    rw [hp, Nat.pow_zero, Nat.mul_one]
    exact Nat.le_of_lt Nat.lt_log2_self
  have hd : 2 * d.numerator ≤ d.denominator :=
    calc
      2 * d.numerator ≤ 2 * (2 ^ (d.coefficient.log2 + 1) * stepsInOne) :=
        Nat.mul_le_mul_left 2 (numerator_le hc)
      _ = 2 * 2 ^ (d.coefficient.log2 + 1 + 1074)                       := by
        rw [stepsInOne_eq, Nat.pow_add 2 (d.coefficient.log2 + 1) 1074]
      _ = 2 ^ (d.coefficient.log2 + 1 + 1074 + 1)                       := Nat.pow_succ'.symm
      _ ≤ 2 ^ (3 * (-d.exponent).toNat)                                 :=
        Nat.pow_le_pow_right Nat.two_pos (by omega)
      _ = 8 ^ (-d.exponent).toNat                                       := by rw [Nat.pow_mul]
      _ ≤ d.denominator                                                 :=
        Nat.pow_le_pow_left (by decide) _
  have hs : steps (0 + 1) = 1 := by decide
  refine readsAs_iff.mpr ⟨?_, ?_, nofun⟩
  · rw [steps_zero]; omega
  · rw [steps_zero, hs]; omega

theorem rank_of_readsAs (h : readsAs r d.numerator d.denominator) (hr : r < infinityRank) :
    d.rank = r := by
  have hd := d.denominator_pos
  fun_cases Decimal.rank d
  case case1 hc =>
    have hn : d.numerator = steps 0 * d.denominator := by simp [numerator, hc, steps_zero]
    exact readsAs_unique hd (hn ▸ readsAs_steps hd) h
  case case2 hc he   => exact absurd (exponent_lt_of_readsAs h hr hc) (Int.not_lt.mpr he)
  case case3 hc _ hl => exact readsAs_unique hd (readsAs_zero hl) h
  case case4         => exact nearestRank_of_readsAs hd h (Nat.le_of_lt hr)

end Decimal

section Shortest

variable {tie : Tie} {r : Nat}

theorem readsAs_onGrid {exponent : Int} {d : Decimal} (h : onGrid? tie r exponent = some d) :
    readsAs r d.numerator d.denominator := by
  revert h
  fun_cases onGrid? tie r exponent
  case case1 unit c _ below _ hb =>
    rintro ⟨⟩
    have hb : below = true := (Bool.and_eq_true_iff.mp hb).left
    rw [Decimal.numerator_mk, Decimal.denominator_mk]
    exact hb
  case case2 unit c _ _ above _ ha =>
    rintro ⟨⟩
    rw [Decimal.numerator_mk, Decimal.denominator_mk]
    exact ha
  case case3 => nofun

-- Ten to the 1074 is five times two to it, so every magnitude is a multiple of its inverse.
theorem numerator_finest (c : Nat) :
    (Decimal.mk (c * Nat.pow 5 1074) (-1074)).numerator =
      c * (Decimal.mk (c * Nat.pow 5 1074) (-1074)).denominator := by
  have he : Nat.pow 5 1074 * (Decimal.mk 1 (-1074)).numerator = (Decimal.mk 1 (-1074)).denominator := by
    decide +kernel
  rw [Decimal.numerator_mk, Decimal.denominator_mk, Nat.mul_assoc, he]

theorem readsAs_shortestBelow (n : Nat) :
    readsAs r (shortestBelow tie r n).numerator (shortestBelow tie r n).denominator := by
  fun_induction shortestBelow tie r n
  case case1 =>
    rw [numerator_finest]
    exact readsAs_steps (Decimal.denominator_pos _)
  case case2 h  => exact readsAs_onGrid h
  case case3 hi => exact hi

-- The digits chosen for a magnitude are read as that magnitude.
theorem readsAs_shortest : readsAs r (shortest tie r).numerator (shortest tie r).denominator := by
  fun_cases shortest tie r
  case case1 h => subst h; decide +kernel
  case case2   => exact readsAs_shortestBelow _

end Shortest
end Polish.Number
