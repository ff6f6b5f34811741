namespace Polish

-- Operators that fold numbers from the left.
inductive Operator.Arith
  | sub
  | mul
  | div
  | mod
  | pow
deriving DecidableEq, Repr

-- Functions of one number.
inductive Operator.Unary
  | sin
  | cos
  | tan
  | asin
  | acos
  | atan
  | toRad
  | toDeg
  | ln
  | exp
  | log10
deriving DecidableEq, Repr

inductive Operator
  | program
  | assign
  | toNumeric
  | toText
  | print
  | input
  | add
  | arith (op : Operator.Arith)
  | unary (f : Operator.Unary)
  -- Stands for every spelling that belongs to no operator.
  | unknown
deriving DecidableEq, Repr

namespace Operator

def spelling : Operator → String
  | .program      => "program"
  | .assign       => "assign"
  | .toNumeric    => "to_numeric"
  | .toText       => "to_string"
  | .print        => "print"
  | .input        => "input"
  | .add          => "+"
  | .arith .sub   => "-"
  | .arith .mul   => "*"
  | .arith .div   => "/"
  | .arith .mod   => "%"
  | .arith .pow   => "^"
  | .unary .sin   => "sin"
  | .unary .cos   => "cos"
  | .unary .tan   => "tan"
  | .unary .asin  => "asin"
  | .unary .acos  => "acos"
  | .unary .atan  => "atan"
  | .unary .toRad => "to_rad"
  | .unary .toDeg => "to_deg"
  | .unary .ln    => "ln"
  | .unary .exp   => "exp"
  | .unary .log10 => "log10"
  | .unknown      => "none"

-- The name used in messages: words for the signs, the spelling for the rest.
def name : Operator → String
  | .add        => "add"
  | .arith .sub => "sub"
  | .arith .mul => "mul"
  | .arith .div => "div"
  | .arith .mod => "mod"
  | .arith .pow => "pow"
  | op          => op.spelling

-- The name used in dumps.
def label : Operator → String
  | .program      => "Program"
  | .assign       => "Assign"
  | .toNumeric    => "ToNumeric"
  | .toText       => "ToString"
  | .print        => "Print"
  | .input        => "Input"
  | .add          => "Add"
  | .arith .sub   => "Sub"
  | .arith .mul   => "Mul"
  | .arith .div   => "Div"
  | .arith .mod   => "Mod"
  | .arith .pow   => "Pow"
  | .unary .sin   => "Sin"
  | .unary .cos   => "Cos"
  | .unary .tan   => "Tan"
  | .unary .asin  => "Asin"
  | .unary .acos  => "Acos"
  | .unary .atan  => "Atan"
  | .unary .toRad => "ToRad"
  | .unary .toDeg => "ToDeg"
  | .unary .ln    => "Ln"
  | .unary .exp   => "Exp"
  | .unary .log10 => "Log10"
  | .unknown      => "None"

-- The operators that do not compute with numbers alone.
def isSpecial : Operator → Bool
  | .program | .assign | .toNumeric | .toText | .print | .input => true
  | _ => false

-- Every operator that has a spelling of its own.
def all : List Operator := [
  .program, .assign, .toNumeric, .toText, .print, .input,
  .add, .arith .sub, .arith .mul, .arith .div, .arith .mod, .arith .pow,
  .unary .sin, .unary .cos, .unary .tan, .unary .asin, .unary .acos, .unary .atan,
  .unary .toRad, .unary .toDeg, .unary .ln, .unary .exp, .unary .log10
]

theorem mem_all {op : Operator} : op ∈ all ↔ op ≠ .unknown := by
  cases op
  case arith op => cases op <;> decide
  case unary f  => cases f <;> decide
  all_goals decide

def ofSpelling? (word : String) : Option Operator :=
  all.find? (·.spelling == word)

theorem ofSpelling?_spelling {op : Operator} (h : op ≠ .unknown) :
    ofSpelling? op.spelling = some op := by
  cases op
  case arith op => cases op <;> decide
  case unary f  => cases f <;> decide
  case unknown  => contradiction
  all_goals decide

end Operator
end Polish
