import Polish.Number.Decimal
import Polish.Text.Blank

namespace Polish.Number

-- A sign, digits with at most one point among or around them, and an exponent.
structure Numeral where
  negative  : Bool
  magnitude : Decimal
deriving DecidableEq, Repr

namespace Numeral

def splitSign : List Char → Bool × List Char
  | '-' :: cs => (true, cs)
  | '+' :: cs => (false, cs)
  | cs        => (false, cs)

-- The digits after a point, if there is one, and what follows.
def splitFraction : List Char → List Char × List Char
  | '.' :: cs => (cs.takeWhile Char.isDigit, cs.dropWhile Char.isDigit)
  | cs        => ([], cs)

-- An exponent stops growing once it has passed 65535: no magnitude is left to tell apart.
def exponentOfDigits (ds : List Char) : Nat :=
  ds.foldl (fun e c => if e < 65536 then 10 * e + (c.toNat - '0'.toNat) else e) 0

-- The exponent that the end of a numeral gives; a numeral may end without one.
def readExponent? : List Char → Option Int
  | []      => some 0
  | c :: cs =>
    let (negative, ds) := splitSign cs
    if (c == 'e' || c == 'E') && !ds.isEmpty && ds.all Char.isDigit then
      some (if negative then -exponentOfDigits ds else exponentOfDigits ds)
    else
      none

def read? (cs : List Char) : Option Numeral := do
  let (negative, cs) := splitSign cs
  let whole := cs.takeWhile Char.isDigit
  let (fraction, rest) := splitFraction (cs.dropWhile Char.isDigit)
  guard !(whole ++ fraction).isEmpty
  let exponent ← readExponent? rest
  return { negative, magnitude := ⟨Nat.ofDigitChars 10 (whole ++ fraction) 0, exponent - fraction.length⟩ }

def toFloat (n : Numeral) : Float :=
  ofRank n.negative n.magnitude.rank

-- What an exponent begins with.
def isMark (c : Char) : Bool :=
  c == 'e' || c == 'E'

-- Whether characters are put together like a numeral, as far as that can be told without counting
-- the points.
def hasShape (cs : List Char) : Bool :=
  let unsigned := (splitSign cs).2
  let mantissa := unsigned.takeWhile (!isMark ·)
  mantissa.any Char.isDigit && mantissa.all (fun c => c.isDigit || c == '.') &&
    match unsigned.dropWhile (!isMark ·) with
    | []      => true
    | _ :: cs => !(splitSign cs).2.isEmpty && (splitSign cs).2.all Char.isDigit

end Numeral

-- The words for numbers without digits, in capitals or not.
def ofWord? (cs : List Char) : Option Float :=
  let word := (Numeral.splitSign cs).2.map Char.toLower
  if word = ['i', 'n', 'f'] ∨ word = ['i', 'n', 'f', 'i', 'n', 'i', 't', 'y'] then
    some (ofRank (Numeral.splitSign cs).1 infinityRank)
  else if word = ['n', 'a', 'n'] then
    some undefined
  else
    none

-- The number that characters stand for, be it a numeral or a word.
def ofChars? (cs : List Char) : Option Float :=
  (Numeral.read? cs).map Numeral.toFloat <|> ofWord? cs

-- The number that a text spells, blanks around it aside. Only what is put together like a numeral is
-- looked at, so no word is taken for a number.
def read? (s : String) : Option Float :=
  let cs := (Text.trim s).toList
  if Numeral.hasShape cs then ofChars? cs else none

end Polish.Number
