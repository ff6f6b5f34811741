import Polish.Text.Blank
import Polish.Token.Lexer
import Polish.Tree.Eval
import Polish.Tree.Parser

namespace Polish

namespace Session

-- Evaluates the tree that a source spells.
def eval (source : String) : Eval Value := do
  (← Eval.ofExcept (parse (tokenize source))).eval

-- Nothing is evaluated if a source has no tokens.
def cycle (source : String) : Eval (Option Value) :=
  match tokenize source with
  | []     => return none
  | tokens => do
    let tree ← Eval.ofExcept (parse tokens)
    return some (← tree.eval)

-- Runs a source, forgetting all variables if it fails.
def run (source : String) : Eval (Option Value) :=
  tryCatch (cycle source) fun e => do
    Eval.clear
    throw e

-- What came of a line.
inductive Outcome
  | skip
  | quit
  | cleared
  | help
  | value (v : Option Value)
deriving DecidableEq, Repr

-- Obeys a command, or runs the line as a source.
def line (text : String) : Eval Outcome :=
  match Text.trim text with
  | ""               => return .skip
  | ":quit"          => return .quit
  | ":help"          => return .help
  | ":clear_runtime" => do
    Eval.clear
    return .cleared
  | source           => return .value (← run source)

end Session
end Polish
