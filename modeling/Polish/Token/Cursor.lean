import Polish.Error
import Polish.Token

namespace Polish

-- A position in a token list that only moves forward.
structure Token.Cursor where
  rest : List Token
deriving DecidableEq, Repr

namespace Token.Cursor

-- The token under the cursor, if any is left.
def look (c : Cursor) : Option Token :=
  c.rest.head?

def advance (c : Cursor) : Except Error Cursor :=
  match c.rest with
  | []        => throw (.lexer "token list is empty")
  | _ :: rest => pure ⟨rest⟩

def remaining (c : Cursor) : Nat :=
  c.rest.length

def isEmpty (c : Cursor) : Bool :=
  c.rest.isEmpty

end Token.Cursor
end Polish
