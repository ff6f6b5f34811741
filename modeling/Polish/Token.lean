import Polish.Operator

namespace Polish

inductive Token.Kind
  | numeric
  | identifier
  | null
  | operator
  | string
  | leftParen
  | rightParen
  | unclassified
deriving DecidableEq, Repr

namespace Token.Kind

-- The words for a kind in messages.
def describe : Kind → String
  | .numeric      => "numeric"
  | .identifier   => "identifier"
  | .null         => "null"
  | .operator     => "operator"
  | .string       => "string"
  | .leftParen    => "left parenthesis"
  | .rightParen   => "right parenthesis"
  | .unclassified => "none"

-- The name of a kind in dumps.
def label : Kind → String
  | .numeric      => "Numeric"
  | .identifier   => "Identifier"
  | .null         => "Null"
  | .operator     => "Operator"
  | .string       => "String"
  | .leftParen    => "LeftParen"
  | .rightParen   => "RightParen"
  | .unclassified => "None"

-- Kinds that make a whole expression.
def isAtom : Kind → Bool
  | .numeric | .string | .identifier | .null => true
  | _ => false

end Token.Kind

structure Token where
  kind : Token.Kind
  text : String
deriving DecidableEq, Repr

namespace Token

-- The kind of a reserved word that is no operator.
def keyword? (word : String) : Option Kind :=
  if word = "null" then some .null else none

-- A word is an operator if it is spelled like one, else a keyword if it is reserved, else a name.
def ofWord (word : String) : Token :=
  if (Operator.ofSpelling? word).isSome then ⟨.operator, word⟩
  else ⟨(keyword? word).getD .identifier, word⟩

@[simp]
theorem ofWord_text (word : String) : (ofWord word).text = word := by
  simp only [ofWord]
  split <;> rfl

end Token
end Polish
