import Polish.Number.Rank

namespace Polish.Number

-- The magnitude `coefficient · 10 ^ exponent`.
structure Decimal where
  coefficient : Nat
  exponent    : Int
deriving DecidableEq, Repr

namespace Decimal

-- A decimal measures `numerator / denominator` steps of 2⁻¹⁰⁷⁴.
def numerator (d : Decimal) : Nat :=
  d.coefficient * Nat.pow 10 d.exponent.toNat * stepsInOne

def denominator (d : Decimal) : Nat :=
  Nat.pow 10 (-d.exponent).toNat

theorem denominator_pos (d : Decimal) : 0 < d.denominator :=
  Nat.pow_pos (by decide)

-- The rank of the nearest magnitude. A power of ten is only computed where it can matter: from
-- 10³⁰⁹ on everything is infinite, and as 10 is more than 2³, a coefficient with too negative an
-- exponent stays below half a step.
def rank (d : Decimal) : Nat :=
  if d.coefficient = 0 then 0
  else if 309 ≤ d.exponent then infinityRank
  else if d.coefficient.log2 + 1076 ≤ -3 * d.exponent then 0
  else nearestRank d.numerator d.denominator

end Decimal
end Polish.Number
