import Polish.Number.Shortest

namespace Polish.Number

namespace Decimal

def digits (d : Decimal) : List Char :=
  Nat.toDigits 10 d.coefficient

-- The power of ten at which the first digit stands.
def leading (d : Decimal) : Int :=
  d.digits.length - 1 + d.exponent

-- All digits in their places. A whole number has no point, and a fraction a digit before it.
def positional (d : Decimal) : List Char :=
  if 0 ≤ d.exponent then
    d.digits ++ List.replicate d.exponent.toNat '0'
  else
    let places := (-d.exponent).toNat
    let ds := List.replicate (places + 1 - d.digits.length) '0' ++ d.digits
    ds.take (ds.length - places) ++ '.' :: ds.drop (ds.length - places)

-- One digit before the point, and the exponent with its sign.
def scientific (d : Decimal) : List Char :=
  let fraction := d.digits.drop 1
  d.digits.take 1 ++ (if fraction.isEmpty then [] else '.' :: fraction) ++
    'e' :: (if d.leading < 0 then '-' else '+') :: Nat.toDigits 10 d.leading.natAbs

end Decimal

-- The decisions that tell two ways of writing numbers apart.
structure Layout where
  tie          : Tie
  isPositional : Int → Bool
  wholeEnd     : List Char

namespace Layout

-- Always positional, whole numbers bare.
def plain : Layout where
  tie            := .up
  isPositional _ := true
  wholeEnd       := []

-- Positional from 10⁻⁵ up to 10¹⁶, whole numbers with a zero after the point.
def data : Layout where
  tie            := .even
  isPositional e := -5 ≤ e && e < 16
  wholeEnd       := ['.', '0']

def magnitude (layout : Layout) (d : Decimal) : List Char :=
  if layout.isPositional d.leading then
    d.positional ++ (if 0 ≤ d.exponent then layout.wholeEnd else [])
  else
    d.scientific

-- The text of a number that is neither infinite nor undefined; zero keeps its sign.
def finite (layout : Layout) (x : Float) : String :=
  String.ofList ((if isNegative x then ['-'] else []) ++ layout.magnitude (shortest layout.tie (rank x)))

end Layout

def write (x : Float) : String :=
  if x.isNaN then "NaN"
  else if x.isInf then (if isNegative x then "-inf" else "inf")
  else Layout.plain.finite x

end Polish.Number
