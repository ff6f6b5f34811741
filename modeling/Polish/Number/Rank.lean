namespace Polish.Number

-- The number of ranks that go up in steps of one length.
def groupSize : Nat :=
  1 <<< 52

-- One more than the rank of the largest finite magnitude.
def infinityRank : Nat :=
  0x7ff * groupSize

def signBit : Nat :=
  1 <<< 63

-- The bit pattern without the sign. Zero has rank 0, and the next larger magnitude always has the
-- next rank.
def rank (x : Float) : Nat :=
  x.toBits.toNat % signBit

def isNegative (x : Float) : Bool :=
  signBit ≤ x.toBits.toNat

def ofRank (negative : Bool) (rank : Nat) : Float :=
  Float.ofBits (.ofNat (if negative then rank + signBit else rank))

def undefined : Float :=
  ofRank false (infinityRank + groupSize / 2)

-- How many steps of 2⁻¹⁰⁷⁴ the number one measures.
def stepsInOne : Nat :=
  1 <<< 1074

-- How many steps of 2⁻¹⁰⁷⁴ the magnitude of a rank measures. In the first group it is the rank
-- itself; from the third on, each group goes up in steps twice as long as the group before.
def steps (rank : Nat) : Nat :=
  if rank < groupSize then rank else (rank % groupSize + groupSize) <<< (rank / groupSize - 1)

theorem steps_zero : steps 0 = 0 :=
  rfl

-- Division rounded to the nearest whole number, a half to the even neighbour.
def roundDiv (a b : Nat) : Nat :=
  if 2 * (a % b) < b ∨ (2 * (a % b) = b ∧ a / b % 2 = 0) then a / b else a / b + 1

-- The rank of the magnitude nearest to `a / b` steps, which is infinity past the largest finite
-- one. The quotient is cut to 53 bits by dropping `k` of them; a quotient rounded up to 54 bits moves
-- the rank into the next group by itself.
def nearestRank (a b : Nat) : Nat :=
  let k := (a / b).log2 - 52
  min infinityRank (k * groupSize + roundDiv a (b <<< k))

-- The remainder of a division truncated towards zero; it is exact and has the sign of `x`.
def remainder (x y : Float) : Float :=
  if x.isNaN || y.isNaN || x.isInf || rank y == 0 then
    undefined
  else if y.isInf then
    x
  else
    ofRank (isNegative x) (nearestRank (steps (rank x) % steps (rank y)) 1)

end Polish.Number
