import Polish.Error
import Polish.Number.Numeral
import Polish.Number.Rank
import Polish.Operator
import Polish.Value

namespace Polish

namespace Operator

def Arith.apply : Arith → Float → Float → Float
  | .sub, x, y => x - y
  | .mul, x, y => x * y
  | .div, x, y => x / y
  | .mod, x, y => Number.remainder x y
  | .pow, x, y => x.pow y

-- A whole turn in radians, the number nearest to 2π.
def fullTurn : Float :=
  Float.ofBits 0x401921fb54442d18

def fullTurnDegrees : Float :=
  360

def Unary.apply : Unary → Float → Float
  | .sin,   x => x.sin
  | .cos,   x => x.cos
  | .tan,   x => x.tan
  | .asin,  x => x.asin
  | .acos,  x => x.acos
  | .atan,  x => x.atan
  | .toRad, x => x * fullTurn / fullTurnDegrees
  | .toDeg, x => x * fullTurnDegrees / fullTurn
  | .ln,    x => x.log
  | .exp,   x => x.exp
  | .log10, x => x.log10

end Operator

namespace Value

-- The number that an operand has to be.
def operand (op : Operator) : Value → Except Error Float
  | .number x => .ok x
  | .text _   => .error (.textOperand op.name)
  | .none     => .error (.untypedOperand op.name)

-- Numbers are summed and texts joined.
def plus : Value → Value → Except Error Value
  | .none,     .none     => .error (.untypedOperand Operator.add.name)
  | .none,     v         => .ok v
  | .number x, .number y => .ok (.number (x + y))
  | .text s,   .text t   => .ok (.text (s ++ t))
  | _,         _         => .error (.mixedOperands Operator.add.name)

-- The first operand fixes the kind of the rest. Before it there is no value.
def arith (op : Operator.Arith) : Value → Value → Except Error Value
  | .none,     v         => (v.operand (.arith op)).map .number
  | .number x, .number y => .ok (.number (op.apply x y))
  | _,         _         => .error (.mixedOperands (Operator.arith op).name)

def unary (f : Operator.Unary) (v : Value) : Except Error Value :=
  (v.operand (.unary f)).map (.number ∘ f.apply)

def toNumeric : Value → Except Error Value
  | .number x => .ok (.number x)
  | .text s   =>
    match Number.read? s with
    | .some x => .ok (.number x)
    | .none   => .error (.notNumeric s)
  | .none     => .error (.untypedOperand Operator.toNumeric.name)

def toText : Value → Except Error Value
  | .number x => .ok (.text (Number.write x))
  | .text s   => .ok (.text s)
  | .none     => .error (.untypedOperand Operator.toText.name)

end Value
end Polish
