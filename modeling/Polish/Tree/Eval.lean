import Polish.Arithmetic
import Polish.Machine
import Polish.Tree

namespace Polish

namespace Eval

-- Prints a value; nothing is left of the ones before it.
def print (_ v : Value) : Eval Value := do
  write v.display
  return .none

-- The next word of the input.
def input : Eval Value := do
  match ← readWord with
  | some word => return .text word
  | none      => throw (.stream "input stream is exhausted")

end Eval

namespace Tree

def oneArgument (op : Operator) : Error :=
  .invalidArguments op.name "only takes one argument"

mutual

def eval : Tree → Eval Value
  | .const v     => pure v
  | .ident name  => Eval.lookup name
  | .apply op ts =>
    if ts.isEmpty then
      throw (.noArguments op.name)
    else match op with
      | .program   => evalFold (fun _ _ => pure .none) .none ts
      | .print     => evalFold Eval.print .none ts
      | .add       => evalFold (fun acc v => Eval.ofExcept (acc.plus v)) .none ts
      | .arith op  => evalFold (fun acc v => Eval.ofExcept (acc.arith op v)) .none ts
      | .input     => do
        let _ ← evalFold Eval.print .none ts
        Eval.input
      | .assign    =>
        match ts with
        | [.ident name, source] =>
          if source.isIdent then
            throw (.invalidArguments Operator.assign.name
              "second argument must be a constant value or an expression")
          else do
            Eval.assign name (← source.eval)
            return .none
        | [_, _] => throw (.invalidArguments Operator.assign.name "first argument must be an identifier")
        | _      => throw (.invalidArguments Operator.assign.name "takes exactly two arguments")
      | .toNumeric =>
        match ts with
        | [t] => do Eval.ofExcept (← t.eval).toNumeric
        | _   => throw (oneArgument .toNumeric)
      | .toText    =>
        match ts with
        | [t] => do Eval.ofExcept (← t.eval).toText
        | _   => throw (oneArgument .toText)
      | .unary f   =>
        match ts with
        | [t] => do Eval.ofExcept ((← t.eval).unary f)
        | _   => throw (oneArgument (.unary f))
      | .unknown   => throw .unknownOperator

-- Evaluates trees in order, combining each value with what the ones before it came to.
def evalFold (f : Value → Value → Eval Value) (acc : Value) : List Tree → Eval Value
  | []      => return acc
  | t :: ts => do
    let v ← t.eval
    evalFold f (← f acc v) ts

end

end Tree
end Polish
