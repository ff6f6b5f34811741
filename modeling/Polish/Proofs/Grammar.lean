import Polish.Number.Numeral
import Polish.Token
import Polish.Tree

namespace Polish

namespace Grammar

-- The trees that single tokens stand for. A numeral has to be one that can be read.
inductive Atom : Token → Tree → Prop
  | numeral {text x} : (Number.read? text = some x) → Atom ⟨.numeric, text⟩ (.const (.number x))
  | text    {text}   : Atom ⟨.string, text⟩ (.const (.text text))
  | name    {text}   : Atom ⟨.identifier, text⟩ (.ident text)
  | null    {text}   : Atom ⟨.null, text⟩ (.const .none)

-- The operator that a token is read as. A spelling that belongs to none is not refused.
def operator (token : Token) : Operator :=
  Operator.ofSpelling? token.text |>.getD .unknown

mutual

-- An expression is an atom, an atom in parentheses, or an operator and its arguments in
-- parentheses. What closes an atom is known by its kind, and what closes an application also by
-- its text.
inductive Expression : List Token → Tree → Prop
  | atom {a t} :
    (Atom a t) → Expression [a] t
  | wrapped {l a r t} :
    (l.kind = .leftParen) → (Atom a t) → (r.kind = .rightParen) → Expression [l, a, r] t
  | apply {l o ts us} :
    (l.kind = .leftParen) → (o.kind = .operator) → (Expressions ts us) →
    Expression (l :: o :: (ts ++ [⟨.rightParen, ")"⟩])) (.apply (operator o) us)

inductive Expressions : List Token → List Tree → Prop
  | nil :
    Expressions [] []
  | cons {ts us t rest} :
    (Expression ts t) → (Expressions us rest) → Expressions (ts ++ us) (t :: rest)

end

theorem Expressions.append {ts us : List Token} {xs ys : List Tree} :
    (Expressions ts xs) → (Expressions us ys) → Expressions (ts ++ us) (xs ++ ys)
  | .nil,       h => h
  | .cons e es, h => by
    rw [List.append_assoc, List.cons_append]
    exact .cons e (es.append h)

theorem Expressions.single {ts : List Token} {t : Tree} (e : Expression ts t) :
    Expressions ts [t] := by
  have h := Expressions.cons e .nil
  rwa [List.append_nil] at h

theorem Expressions.snoc {ts us : List Token} {xs : List Tree} {t : Tree}
    (es : Expressions ts xs) (e : Expression us t) : Expressions (ts ++ us) (xs ++ [t]) :=
  es.append (.single e)

end Grammar

open Grammar

-- How many parentheses are open after a token, if `n` are open before it.
def Token.level (token : Token) (n : Nat) : Nat :=
  match token.kind with
  | .leftParen  => n + 1
  | .rightParen => n - 1
  | _           => n

-- How many parentheses are open after some tokens, if `n` are open before them.
def openAfter (n : Nat) : List Token → Nat
  | []      => n
  | t :: ts => openAfter (t.level n) ts

-- The most parentheses that are open at any time while some tokens go by, if `n` are open before.
def deepest (n : Nat) : List Token → Nat
  | []      => n
  | t :: ts => max n (deepest (t.level n) ts)

-- How deep the parentheses of a whole list are nested.
def nesting (ts : List Token) : Nat :=
  deepest 0 ts

-- The lists that are to be accepted, each with its tree.
structure Grammar.Sentence (ts : List Token) (t : Tree) : Prop where
  expression : Expression ts t
  nesting    : nesting ts ≤ 256

theorem Token.level_of_leftParen {a : Token} {n : Nat} (h : a.kind = .leftParen) :
    a.level n = n + 1 := by
  simp [level, h]

theorem Token.level_of_rightParen {a : Token} {n : Nat} (h : a.kind = .rightParen) :
    a.level n = n - 1 := by
  simp [level, h]

theorem Token.level_of_operator {a : Token} {n : Nat} (h : a.kind = .operator) : a.level n = n := by
  simp [level, h]

theorem Grammar.Atom.level {a : Token} {t : Tree} {n : Nat} : (Atom a t) → a.level n = n
  | .numeral _ | .text | .name | .null => rfl

theorem openAfter_append (n : Nat) (ts us : List Token) :
    openAfter n (ts ++ us) = openAfter (openAfter n ts) us := by
  induction ts generalizing n
  case nil          => rfl
  case cons t ts hi => exact hi _

theorem le_deepest (n : Nat) (ts : List Token) : n ≤ deepest n ts := by
  cases ts
  case nil  => exact Nat.le_refl n
  case cons => exact Nat.le_max_left ..

theorem openAfter_le_deepest (n : Nat) (ts : List Token) : openAfter n ts ≤ deepest n ts := by
  induction ts generalizing n
  case nil          => exact Nat.le_refl n
  case cons t ts hi => exact Nat.le_trans (hi _) (Nat.le_max_right ..)

theorem deepest_append (n : Nat) (ts us : List Token) :
    deepest n (ts ++ us) = max (deepest n ts) (deepest (openAfter n ts) us) := by
  induction ts generalizing n
  case nil          => simp [deepest, openAfter, le_deepest]
  case cons t ts hi => simp [deepest, openAfter, hi, Nat.max_assoc]

theorem deepest_cons_leftParen {l : Token} {n : Nat} (h : l.kind = .leftParen) (ts : List Token) :
    deepest n (l :: ts) = deepest (n + 1) ts := by
  have := le_deepest (n + 1) ts
  simp only [deepest, Token.level_of_leftParen h]
  omega

mutual

-- An expression closes every parenthesis that it opens, and no other.
theorem Grammar.Expression.openAfter_eq {ts : List Token} {t : Tree} (n : Nat) :
    (Expression ts t) → openAfter n ts = n
  | .atom a => a.level
  | .wrapped hl a hr => by
    simp [openAfter, Token.level_of_leftParen hl, a.level, Token.level_of_rightParen hr]
  | .apply hl ho es => by
    simp only [openAfter, Token.level_of_leftParen hl, Token.level_of_operator ho]
    rw [openAfter_append, es.openAfter_eq]
    rfl

theorem Grammar.Expressions.openAfter_eq {ts : List Token} {us : List Tree} (n : Nat) :
    (Expressions ts us) → openAfter n ts = n
  | .nil       => rfl
  | .cons e es => by rw [openAfter_append, e.openAfter_eq, es.openAfter_eq]

end

end Polish
