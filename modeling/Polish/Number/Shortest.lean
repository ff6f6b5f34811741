import Polish.Number.Decimal

namespace Polish.Number

-- Which of two equally near decimals is taken.
inductive Tie
  | up
  | even
deriving DecidableEq, Repr

def Tie.keeps : Tie → Nat → Bool
  | .up,   _ => false
  | .even, c => c % 2 == 0

-- Whether `a / b` steps are read as the magnitude of a rank. The ends of the interval lie half way
-- to the neighbours and belong to it just when the rank is even.
def readsAs (rank a b : Nat) : Bool :=
  let lo := (steps (rank - 1) + steps rank) * b
  let hi := (steps rank + steps (rank + 1)) * b
  if rank % 2 = 0 then lo ≤ 2 * a && 2 * a ≤ hi else lo < 2 * a && 2 * a < hi

-- The multiple of a power of ten that is read as the magnitude of a rank, the nearer one if the
-- neighbours on both sides are.
def onGrid? (tie : Tie) (rank : Nat) (exponent : Int) : Option Decimal :=
  let unit : Decimal := ⟨1, exponent⟩
  let c := steps rank * unit.denominator / unit.numerator
  let r := steps rank * unit.denominator % unit.numerator
  let below := readsAs rank (c * unit.numerator) unit.denominator
  let above := readsAs rank ((c + 1) * unit.numerator) unit.denominator
  if below && (!above || 2 * r < unit.numerator || (2 * r == unit.numerator && tie.keeps c)) then
    some ⟨c, exponent⟩
  else if above then
    some ⟨c + 1, exponent⟩
  else
    none

-- Tries the exponents from `n - 1074` downwards. The finest grid holds every magnitude.
def shortestBelow (tie : Tie) (rank : Nat) : Nat → Decimal
  | 0     => ⟨steps rank * Nat.pow 5 1074, -1074⟩
  | n + 1 =>
    match onGrid? tie rank (n + 1 - 1074) with
    | some d => d
    | none   => shortestBelow tie rank n

-- The search starts where ten to the exponent exceeds the magnitude; 0.30103 is the decimal
-- logarithm of two, rounded up.
def shortest (tie : Tie) (rank : Nat) : Decimal :=
  if rank = 0 then ⟨0, 0⟩ else shortestBelow tie rank (752 + (steps rank).log2 * 30103 / 100000)

end Polish.Number
