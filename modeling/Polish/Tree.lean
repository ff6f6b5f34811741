import Polish.Operator
import Polish.Value

namespace Polish

inductive Tree
  | const (value : Value)
  | ident (name : String)
  | apply (op : Operator) (children : List Tree)
deriving Repr

namespace Tree

-- The name of a tree's shape in dumps.
def label : Tree → String
  | .const _   => "ConstValue"
  | .ident _   => "Identifier"
  | .apply _ _ => "Expression"

def children : Tree → List Tree
  | .apply _ ts => ts
  | _           => []

def isIdent : Tree → Bool
  | .ident _ => true
  | _        => false

-- What holds of an application if it holds of its arguments holds of every tree.
@[elab_as_elim]
theorem induction {motive : Tree → Prop} (const : ∀ v, motive (.const v))
    (ident : ∀ name, motive (.ident name))
    (apply : ∀ op ts, (∀ t ∈ ts, motive t) → motive (.apply op ts)) (t : Tree) : motive t :=
  @Tree.rec motive (fun ts => ∀ t ∈ ts, motive t) const ident apply nofun
    (fun _ _ h hs => List.forall_mem_cons.mpr ⟨h, hs⟩) t

mutual

-- The number of nodes.
def size : Tree → Nat
  | .const _    => 1
  | .ident _    => 1
  | .apply _ ts => 1 + sizeAll ts

def sizeAll : List Tree → Nat
  | []      => 0
  | t :: ts => t.size + sizeAll ts

end

mutual

-- The number of nodes on a longest path from the root.
def depth : Tree → Nat
  | .const _    => 1
  | .ident _    => 1
  | .apply _ ts => 1 + depthAll ts

def depthAll : List Tree → Nat
  | []      => 0
  | t :: ts => max t.depth (depthAll ts)

end

end Tree
end Polish
