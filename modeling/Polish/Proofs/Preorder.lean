import Polish.Proofs.Parsing

namespace Polish

open Grammar

-- What stands at one place of a tree: a constant, a name, or the operator of an application.
inductive Tree.Node
  | value    (v : Value)
  | name     (name : String)
  | operator (op : Operator)
deriving DecidableEq, Repr

namespace Tree

mutual

-- The nodes of a tree, each application before its arguments.
def preorder : Tree → List Node
  | .const v     => [.value v]
  | .ident name  => [.name name]
  | .apply op ts => .operator op :: preorderAll ts

def preorderAll : List Tree → List Node
  | []      => []
  | t :: ts => t.preorder ++ preorderAll ts

end

mutual

theorem length_preorder : (t : Tree) → t.preorder.length = t.size
  | .const _    => rfl
  | .ident _    => rfl
  | .apply _ ts => by
    rw [preorder, List.length_cons, length_preorderAll, size, Nat.add_comm]

theorem length_preorderAll : (ts : List Tree) → (preorderAll ts).length = sizeAll ts
  | []      => rfl
  | t :: ts => by
    rw [preorderAll, List.length_append, length_preorder, length_preorderAll, sizeAll]

end

end Tree

namespace Token

def isParen (token : Token) : Bool :=
  token.kind = .leftParen || token.kind = .rightParen

-- The node that a token stands for: none if it is a parenthesis, or a numeral that cannot be read.
def node? (token : Token) : Option Tree.Node :=
  match token.kind with
  | .numeric    => (Number.read? token.text).map fun x => .value (.number x)
  | .string     => some (.value (.text token.text))
  | .identifier => some (.name token.text)
  | .null       => some (.value .none)
  | .operator   => some (.operator (Grammar.operator token))
  | _           => none

end Token

namespace Grammar

-- The tokens other than parentheses.
def content (ts : List Token) : List Token :=
  ts.filter (!·.isParen)

theorem content_append (ts us : List Token) : content (ts ++ us) = content ts ++ content us :=
  List.filter_append ..

theorem content_leftParen {l : Token} (h : l.kind = .leftParen) (ts : List Token) :
    content (l :: ts) = content ts := by
  simp [content, Token.isParen, h]

theorem content_rightParen {r : Token} (h : r.kind = .rightParen) (ts : List Token) :
    content (r :: ts) = content ts := by
  simp [content, Token.isParen, h]

theorem content_operator {o : Token} (h : o.kind = .operator) (ts : List Token) :
    content (o :: ts) = o :: content ts := by
  simp [content, Token.isParen, h]

theorem Atom.content_cons {a : Token} {t : Tree} (ts : List Token) :
    (Atom a t) → content (a :: ts) = a :: content ts
  | .numeral _ | .text | .name | .null => rfl

theorem Atom.map_node? {a : Token} {t : Tree} :
    (Atom a t) → [a].map Token.node? = t.preorder.map some
  | .numeral h => by simp [Token.node?, h, Tree.preorder]
  | .text | .name | .null => rfl

theorem Atom.depth_eq {a : Token} {t : Tree} : (Atom a t) → t.depth = 1
  | .numeral _ | .text | .name | .null => rfl

mutual

theorem Expression.map_node? {ts : List Token} {t : Tree} :
    (Expression ts t) → (content ts).map Token.node? = t.preorder.map some
  | .atom a => by
    rw [a.content_cons]
    exact a.map_node?
  | .wrapped hl a hr => by
    rw [content_leftParen hl, a.content_cons, content_rightParen hr]
    exact a.map_node?
  | .apply hl ho es => by
    rw [content_leftParen hl, content_operator ho, content_append, content_rightParen rfl]
    simp [Token.node?, ho, Tree.preorder, content, ← es.map_node?]

theorem Expressions.map_node? {ts : List Token} {us : List Tree} :
    (Expressions ts us) → (content ts).map Token.node? = (Tree.preorderAll us).map some
  | .nil       => rfl
  | .cons e es => by
    rw [content_append, List.map_append, e.map_node?, es.map_node?, ← List.map_append]
    rfl

end

mutual

-- Each application that a leaf lies in has a parenthesis open before the leaf.
theorem Expression.depth_le {ts : List Token} {t : Tree} (n : Nat) :
    (Expression ts t) → n + t.depth ≤ deepest n ts + 1
  | .atom a | .wrapped _ a _ => by
    rw [a.depth_eq]
    exact Nat.succ_le_succ (le_deepest ..)
  | .apply hl ho es => by
    have h := es.depth_le (n + 1)
    rw [deepest_cons_leftParen hl, Tree.depth]
    simp only [deepest, Token.level_of_operator ho, deepest_append]
    omega

theorem Expressions.depth_le {ts : List Token} {us : List Tree} (n : Nat) :
    (Expressions ts us) → n + Tree.depthAll us ≤ deepest n ts + 1
  | .nil       => Nat.le_succ n
  | .cons e es => by
    have h := e.depth_le n
    have hs := es.depth_le n
    rw [Tree.depthAll, deepest_append, e.openAfter_eq]
    omega

end

end Grammar

-- Parentheses only say how the other tokens belong together.
theorem parse_preorder {ts : List Token} {t : Tree} (h : parse ts = .ok t) :
    (content ts).map Token.node? = t.preorder.map some ∧
    t.size = (content ts).length ∧
    t.depth ≤ nesting ts + 1 ∧ t.depth ≤ 257 := by
  have ⟨he, hn⟩ := sentence_of_parse h
  have hm := he.map_node?
  have hd := he.depth_le 0
  rw [Nat.zero_add] at hd
  refine ⟨hm, ?_, hd, Nat.le_trans hd (Nat.succ_le_succ hn)⟩
  have hl := congrArg List.length hm
  rw [List.length_map, List.length_map, Tree.length_preorder] at hl
  exact hl.symm

-- An atom in parentheses adds nesting but no node, and an operator that is none is a node as well.
theorem parse_preorder_wrapped :
    let ts : List Token := [
      ⟨.leftParen, "("⟩, ⟨.operator, "print"⟩,
      ⟨.leftParen, "("⟩, ⟨.identifier, "x"⟩, ⟨.rightParen, ")"⟩,
      ⟨.leftParen, "("⟩, ⟨.operator, "sum"⟩, ⟨.string, "("⟩, ⟨.rightParen, ")"⟩, ⟨.rightParen, ")"⟩]
    let t : Tree := .apply .print [.ident "x", .apply .unknown [.const (.text "(")]]
    parse ts = .ok t ∧ t.size = 4 ∧ t.depth ≤ 3 ∧ (content ts).map Token.node? =
      [.operator .print, .name "x", .operator .unknown, .value (.text "(")].map some := by
  intro ts t
  have hp : parse ts = .ok t := rfl
  have ⟨hm, hs, hd, _⟩ := parse_preorder hp
  exact ⟨hp, hs, hd, hm⟩

end Polish
