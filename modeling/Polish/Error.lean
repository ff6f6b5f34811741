namespace Polish

inductive Stage
  | lexer
  | parser
  | runtime
deriving DecidableEq, Repr

def Stage.label : Stage → String
  | .lexer   => "Lexer"
  | .parser  => "Parser"
  | .runtime => "Runtime"

inductive Error
  | lexer            (message : String)
  | unexpectedToken  (token : String)
  | expected         (wanted got : String)
  | unexpectedEnd    (wanted : String)
  | invalidNumeral   (literal : String)
  | trailingToken    (token : String)
  | nestingTooDeep   (limit : Nat)
  | unassigned       (name : String)
  | noArguments      (operator : String)
  | invalidArguments (operator reason : String)
  | untypedOperand   (operator : String)
  | textOperand      (operator : String)
  | mixedOperands    (operator : String)
  | notNumeric       (text : String)
  | unknownOperator
  | stream           (message : String)
deriving DecidableEq, Repr

namespace Error

def stage : Error → Stage
  | .lexer _ => .lexer
  | .unexpectedToken _ | .expected _ _ | .unexpectedEnd _ | .invalidNumeral _
  | .trailingToken _ | .nestingTooDeep _ => .parser
  | _ => .runtime

def detail : Error → String
  | .lexer message                    => message
  | .unexpectedToken token            => "unexpected token \"" ++ token ++ "\""
  | .expected wanted got              => "expected " ++ wanted ++ ", got \"" ++ got ++ "\""
  | .unexpectedEnd wanted             => "unexpected end of input, expected " ++ wanted
  | .invalidNumeral literal           => "invalid numeric literal \"" ++ literal ++ "\""
  | .trailingToken token              => "unexpected trailing token \"" ++ token ++ "\""
  | .nestingTooDeep limit             => "expressions nested deeper than " ++ limit.repr ++ " levels"
  | .unassigned name                  => "unassigned identifier " ++ name
  | .noArguments operator             => operator ++ " operator applied without arguments"
  | .invalidArguments operator reason => operator ++ " operator " ++ reason
  | .untypedOperand operator          => "cannot apply " ++ operator ++ " operator on non-typed values"
  | .textOperand operator             => "cannot apply " ++ operator ++ " operator on strings"
  | .mixedOperands operator           => "cannot apply " ++ operator ++ " operator on different types"
  | .notNumeric text                  => "cannot convert \"" ++ text ++ "\" to numeric"
  | .unknownOperator                  => "unknown operator"
  | .stream message                   => message

-- The report of an error: the stage that raised it, then what went wrong.
def message (e : Error) : String :=
  e.stage.label ++ " error: " ++ e.detail

end Error
end Polish
