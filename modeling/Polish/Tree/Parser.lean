import Polish.Error
import Polish.Number.Numeral
import Polish.Token
import Polish.Tree

namespace Polish

-- How many parentheses may be open at once.
def nestingLimit : Nat := 256

-- An application that has not been closed, its last argument first.
structure Parser.Frame where
  op   : Operator
  args : List Tree

-- What a parser waits for, inside the applications that are open.
inductive Parser
  -- An expression, or the end of the innermost application.
  | reading (stack : List Parser.Frame)
  -- An operator or an atom, after a parenthesis.
  | opened  (stack : List Parser.Frame)
  -- A closing parenthesis, after a parenthesis and an atom.
  | closing (stack : List Parser.Frame) (tree : Tree)
  -- Nothing more.
  | done    (tree : Tree)

namespace Parser

def start : Parser :=
  .reading []

-- Hands a whole expression to the innermost application.
def supply : List Frame → Tree → Parser
  | [],         t => .done t
  | f :: stack, t => .reading ({ f with args := t :: f.args } :: stack)

-- The tree of an atom, and nothing for the other kinds.
def atom? (token : Token) : Option (Except Error Tree) :=
  match token.kind with
  | .numeric    =>
    match Number.read? token.text with
    | some x => some (.ok (.const (.number x)))
    | none   => some (.error (.invalidNumeral token.text))
  | .string     => some (.ok (.const (.text token.text)))
  | .identifier => some (.ok (.ident token.text))
  | .null       => some (.ok (.const .none))
  | _           => none

theorem atom?_isSome (token : Token) : (atom? token).isSome = token.kind.isAtom := by
  simp only [atom?]
  repeat' split
  all_goals simp_all [Token.Kind.isAtom]

def step : Parser → Token → Except Error Parser
  | .reading stack, token =>
    match atom? token with
    | some t => t.map (supply stack)
    | none   =>
      match token.kind, stack with
      | .leftParen, _ =>
        if nestingLimit ≤ stack.length then .error (.nestingTooDeep nestingLimit) else .ok (.opened stack)
      | .rightParen, f :: rest =>
        if token.text = ")" then .ok (supply rest (.apply f.op f.args.reverse))
        else .error (.expected ")" token.text)
      | _, _ =>
        .error (.unexpectedToken token.text)
  | .opened stack, token =>
    match atom? token with
    | some t => t.map (.closing stack)
    | none   =>
      if token.kind = .operator then
        .ok (.reading (⟨(Operator.ofSpelling? token.text).getD .unknown, []⟩ :: stack))
      else
        .error (.expected Token.Kind.operator.describe token.text)
  | .closing stack t, token =>
    if token.kind = .rightParen then .ok (supply stack t)
    else .error (.expected Token.Kind.rightParen.describe token.text)
  | .done _, token =>
    .error (.trailingToken token.text)

-- The tree read when the tokens have run out.
def finish : Parser → Except Error Tree
  | .reading []       => .error (.unexpectedEnd "expression")
  | .reading (_ :: _) => .error (.unexpectedEnd ")")
  | .opened _         => .error (.unexpectedEnd "operator or literal")
  | .closing _ _      => .error (.unexpectedEnd Token.Kind.rightParen.describe)
  | .done t           => .ok t

end Parser

-- The tree that a whole token list spells.
def parse (tokens : List Token) : Except Error Tree := do
  (← tokens.foldlM Parser.step .start).finish

end Polish
