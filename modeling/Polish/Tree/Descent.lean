import Polish.Token.Cursor
import Polish.Tree.Parser

namespace Polish

namespace Token.Cursor

-- A cursor with fewer than `n` tokens left.
abbrev Below (n : Nat) :=
  { c : Cursor // c.remaining < n }

def Below.widen {n k : Nat} (h : n ≤ k) (c : Below n) : Below k :=
  ⟨c.val, Nat.lt_of_lt_of_le c.property h⟩

theorem remaining_advance {c next : Cursor} (h : c.advance = .ok next) :
    next.remaining < c.remaining := by
  obtain ⟨_ | _⟩ := c <;> cases h
  exact Nat.lt_succ_self _

-- Moves on, with a proof of it.
def pass (c : Cursor) : Except Error (Below c.remaining) :=
  match h : c.advance with
  | .ok next => .ok ⟨next, remaining_advance h⟩
  | .error e => .error e

end Token.Cursor

open Token (Cursor)

-- Reading a tree through a cursor, with one function for each rule of the grammar.
namespace Descent

-- Something that has been read, and where the cursor stands after it.
abbrev Reading (α : Type) (c : Cursor) :=
  Except Error (α × Cursor.Below c.remaining)

def peek (wanted : String) (c : Cursor) : Except Error Token :=
  match c.look with
  | some token => .ok token
  | none       => .error (.unexpectedEnd wanted)

-- Passes the token under the cursor if it is what is wanted.
def expect (wanted : String) (fits : Token → Bool) (c : Cursor) : Reading Token c := do
  let token ← peek wanted c
  if fits token then
    return (token, ← c.pass)
  else
    throw (.expected wanted token.text)

def expectKind (kind : Token.Kind) : (c : Cursor) → Reading Token c :=
  expect kind.describe (·.kind == kind)

def expectText (text : String) : (c : Cursor) → Reading Token c :=
  expect text (·.text == text)

def atom (c : Cursor) : Reading Tree c := do
  let token ← peek "literal" c
  match Parser.atom? token with
  | some tree =>
    let next ← c.pass
    return (← tree, next)
  | none =>
    throw (.expected "literal" token.text)

-- Reads expressions up to a closing parenthesis or the end of the tokens.
def expressions (expression : (c : Cursor) → Reading Tree c) (c : Cursor) :
    Except Error (List Tree × Cursor.Below (c.remaining + 1)) :=
  match c.look with
  | none       => return ([], ⟨c, Nat.lt_succ_self _⟩)
  | some token =>
    if token.kind = .rightParen then
      return ([], ⟨c, Nat.lt_succ_self _⟩)
    else do
      let (t, next) ← expression c
      let (ts, last) ← expressions expression next.val
      return (t :: ts, last.widen (Nat.le_succ_of_le next.property))
termination_by c.remaining
decreasing_by exact next.property

-- What stands in parentheses, and the closing one.
def inner (expression : (c : Cursor) → Reading Tree c) (c : Cursor) : Reading Tree c := do
  if (← peek "operator or literal" c).kind.isAtom then
    let (t, next) ← atom c
    let (_, last) ← expectKind .rightParen next.val
    return (t, last.widen (Nat.le_of_lt next.property))
  else
    let (token, next) ← expectKind .operator c
    let (ts, stop) ← expressions expression next.val
    let (_, last) ← expectText ")" stop.val
    let op := (Operator.ofSpelling? token.text).getD .unknown
    return (.apply op ts, last.widen (by omega))

-- Reads an expression that has room for so many parentheses within each other.
def expression (levels : Nat) (c : Cursor) : Reading Tree c := do
  let token ← peek "expression" c
  if token.kind = .leftParen then
    let (_, next) ← expectKind .leftParen c
    match levels with
    | 0          => throw (.nestingTooDeep nestingLimit)
    | levels + 1 =>
      let (t, last) ← inner (expression levels) next.val
      return (t, last.widen (Nat.le_of_lt next.property))
  else if token.kind.isAtom then
    atom c
  else
    throw (.unexpectedToken token.text)

-- The whole token list has to be one expression.
def parse (tokens : List Token) : Except Error Tree := do
  let (t, next) ← expression nestingLimit ⟨tokens⟩
  match next.val.look with
  | some token => throw (.trailingToken token.text)
  | none       => return t

end Descent
end Polish
