import Polish.Tree.Eval

namespace Polish

-- How an operator combines the value of an argument with what the ones before it came to.
inductive Operator.Folds : Operator → (Value → Value → Eval Value) → Prop
  | program    : Folds .program (fun _ _ => pure .none)
  | print      : Folds .print Eval.print
  | add        : Folds .add (fun acc v => Eval.ofExcept (acc.plus v))
  | arith {op} : Folds (.arith op) (fun acc v => Eval.ofExcept (acc.arith op v))

-- What an operator makes of its only argument.
inductive Operator.Converts : Operator → (Value → Except Error Value) → Prop
  | toNumeric : Converts .toNumeric Value.toNumeric
  | toText    : Converts .toText Value.toText
  | unary {f} : Converts (.unary f) (Value.unary f)

-- The arguments that an operator is not applied to, and the error that stands for a value then.
inductive Operator.Refuses : Operator → List Tree → Error → Prop
  | empty {op} :
    Refuses op [] (.noArguments op.name)
  | notOne {op f ts} :
    (op.Converts f) → (ts ≠ []) → (ts.length ≠ 1) → Refuses op ts (Tree.oneArgument op)
  | notTwo {ts} :
    (ts ≠ []) → (ts.length ≠ 2) →
    Refuses .assign ts (.invalidArguments "assign" "takes exactly two arguments")
  | notName {target source} :
    (target.isIdent = false) → Refuses .assign [target, source]
      (.invalidArguments "assign" "first argument must be an identifier")
  | onlyName {name source} :
    (source.isIdent) → Refuses .assign [.ident name, source]
      (.invalidArguments "assign" "second argument must be a constant value or an expression")
  | unknown {ts} :
    (ts ≠ []) → Refuses .unknown ts .unknownOperator

namespace Tree

-- The computations that evaluating an application comes down to.
inductive Form (op : Operator) (ts : List Tree) : Eval Value → Prop
  | fails {e} :
    (op.Refuses ts e) → Form op ts (throw e)
  | folds {f} :
    (op.Folds f) → Form op ts (evalFold f .none ts)
  | inputs :
    (op = .input) → Form op ts (do let _ ← evalFold Eval.print .none ts; Eval.input)
  | assigns {name source} :
    (op = .assign) → (ts = [.ident name, source]) → (source.isIdent = false) →
    Form op ts (do Eval.assign name (← source.eval); return .none)
  | converts {f t} :
    (op.Converts f) → (ts = [t]) → Form op ts (do Eval.ofExcept (f (← t.eval)))

-- Says once what evaluation can do.
theorem form_apply (op : Operator) (ts : List Tree) : Form op ts (apply op ts).eval := by
  rw [eval.eq_def]
  dsimp only
  split
  case isTrue ht =>
    cases List.isEmpty_iff.mp ht
    exact .fails .empty
  case isFalse ht =>
    have hn : ts ≠ [] := fun h => ht (List.isEmpty_iff.mpr h)
    have h1 (h : ∀ t, ts = [t] → False) : ts.length ≠ 1 :=
      fun hl => (List.length_eq_one_iff.mp hl).elim h
    cases op <;> dsimp only
    case program => exact .folds .program
    case print   => exact .folds .print
    case add     => exact .folds .add
    case arith   => exact .folds .arith
    case input   => exact .inputs rfl
    case unknown => exact .fails (.unknown hn)
    case assign  =>
      split
      case h_1 name source =>
        split
        case isTrue h  => exact .fails (.onlyName h)
        case isFalse h => exact .assigns rfl rfl (by simpa using h)
      case h_2 target source h =>
        cases target
        case ident => exact (h _ rfl).elim
        all_goals exact .fails (.notName rfl)
      case h_3 h2 =>
        have hl : ts.length ≠ 2 := by
          intro hl
          match ts, hl with
          | [t, u], _ => exact h2 t u rfl
        exact .fails (.notTwo hn hl)
    case toNumeric =>
      split
      case h_1   => exact .converts .toNumeric rfl
      case h_2 h => exact .fails (.notOne .toNumeric hn (h1 h))
    case toText =>
      split
      case h_1   => exact .converts .toText rfl
      case h_2 h => exact .fails (.notOne .toText hn (h1 h))
    case unary =>
      split
      case h_1   => exact .converts .unary rfl
      case h_2 h => exact .fails (.notOne .unary hn (h1 h))

-- The other way around: which of these computations it is, for the operators of each form.
section Forms

variable {op : Operator} {ts : List Tree}

theorem eval_refused {e : Error} (h : op.Refuses ts e) : (apply op ts).eval = throw e := by
  rw [eval.eq_def]
  cases h
  case empty => rfl
  case notOne f hf hn hl =>
    match ts, hn, hl with
    | _ :: _ :: _, _, _ => cases hf <;> rfl
  case notTwo hn hl =>
    match ts, hn, hl with
    | [_], _, _              => simp [Operator.name, Operator.spelling]
    | _ :: _ :: _ :: _, _, _ => simp [Operator.name, Operator.spelling]
  case notName target source ht =>
    cases target
    case ident => cases ht
    all_goals rfl
  case onlyName hs => simp [hs, Operator.name, Operator.spelling]
  case unknown hn  => simp [hn]

theorem eval_folds {f : Value → Value → Eval Value} (hf : op.Folds f) (hn : ts ≠ []) :
    (apply op ts).eval = evalFold f .none ts := by
  rw [eval.eq_def]
  cases hf <;> simp [hn]

theorem eval_inputs (hn : ts ≠ []) :
    (apply .input ts).eval = (do let _ ← evalFold Eval.print .none ts; Eval.input) := by
  rw [eval.eq_def]
  simp [hn]

theorem eval_assigns {name : String} {source : Tree} (hs : source.isIdent = false) :
    (apply .assign [.ident name, source]).eval =
      (do Eval.assign name (← source.eval); return .none) := by
  rw [eval.eq_def]
  simp [hs]

theorem eval_converts {f : Value → Except Error Value} {t : Tree} (hf : op.Converts f) :
    (apply op [t]).eval = (do Eval.ofExcept (f (← t.eval))) := by
  rw [eval.eq_def]
  cases hf <;> simp

theorem exec_converts {f : Value → Except Error Value} {t : Tree} {m m' : Machine} {v : Value}
    (hf : op.Converts f) (h : m.exec t.eval = (.ok v, m')) :
    m.exec (apply op [t]).eval = (f v, m') := by
  rw [eval_converts hf, Machine.exec_bind_of_ok h]
  rfl

end Forms
end Tree

-- The ways in which evaluation uses a machine.
inductive Action
  | lookup (name : String)
  | assign (name : String)
  | print
  | input
deriving DecidableEq, Repr

def Operator.actions : Operator → List Action
  | .print => [.print]
  | .input => [.print, .input]
  | _      => []

namespace Tree

mutual

-- The actions that evaluating a tree may take. The name that is assigned to is not looked up.
def actions : Tree → List Action
  | .const _                           => []
  | .ident name                        => [.lookup name]
  | .apply .assign (.ident name :: ts) => .assign name :: actionsAll ts
  | .apply op ts                       => op.actions ++ actionsAll ts

def actionsAll : List Tree → List Action
  | []      => []
  | t :: ts => t.actions ++ actionsAll ts

end

theorem actions_subset_actionsAll {t : Tree} {ts : List Tree} (h : t ∈ ts) :
    t.actions ⊆ actionsAll ts := by
  induction h
  case head        => exact List.subset_append_left ..
  case tail _ _ hi => exact List.Subset.trans hi (List.subset_append_right ..)

theorem actions_apply {op : Operator} (h : op ≠ .assign) (ts : List Tree) :
    (apply op ts).actions = op.actions ++ actionsAll ts := by
  rw [actions]
  intro _ _ ho
  exact absurd ho h

theorem operator_actions_subset {op : Operator} (h : op ≠ .assign) {ts : List Tree} :
    op.actions ⊆ (apply op ts).actions :=
  actions_apply h ts ▸ List.subset_append_left ..

theorem argument_actions_subset {op : Operator} (h : op ≠ .assign) {t : Tree} {ts : List Tree}
    (ht : t ∈ ts) : t.actions ⊆ (apply op ts).actions :=
  actions_apply h ts ▸ List.Subset.trans (actions_subset_actionsAll ht) (List.subset_append_right ..)

theorem source_actions_subset {name : String} {source : Tree} :
    source.actions ⊆ (apply .assign [.ident name, source]).actions := by
  simp [actions, actionsAll]

end Tree

-- A relation between computations, for any relation between their values, and the values that it
-- takes to be alike. Constants are alike, and so are results of operators on values that are.
structure Coupling where
  Rel   : {α : Type} → (α → α → Prop) → Eval α → Eval α → Prop
  Alike : Value → Value → Prop
  refl  : ∀ v, Alike v v
  pure  : ∀ {α : Type} {R : α → α → Prop} {a b : α}, (R a b) → Rel R (pure a) (pure b)
  throw : ∀ {α : Type} {R : α → α → Prop} (e : Error), Rel R (throw e : Eval α) (throw e)
  bind  : ∀ {α β : Type} {R : α → α → Prop} {Q : β → β → Prop} {x y : Eval α} {f g : α → Eval β},
    (Rel R x y) → (∀ a b, R a b → Rel Q (f a) (g b)) → Rel Q (x >>= f) (y >>= g)
  plus  : ∀ {a b v w : Value}, (Alike a b) → (Alike v w) →
    Rel Alike (Eval.ofExcept (a.plus v)) (Eval.ofExcept (b.plus w))
  arith : ∀ {a b v w : Value} (op : Operator.Arith), (Alike a b) → (Alike v w) →
    Rel Alike (Eval.ofExcept (a.arith op v)) (Eval.ofExcept (b.arith op w))
  convert : ∀ {op : Operator} {f : Value → Except Error Value} {v w : Value},
    (op.Converts f) → (Alike v w) → Rel Alike (Eval.ofExcept (f v)) (Eval.ofExcept (f w))

namespace Coupling

variable (C : Coupling)

def Respects : Action → Prop
  | .lookup name => C.Rel C.Alike (Eval.lookup name) (Eval.lookup name)
  | .assign name => ∀ v w, C.Alike v w → C.Rel Eq (Eval.assign name v) (Eval.assign name w)
  | .print       => ∀ v w, C.Alike v w → C.Rel Eq (Eval.write v.display) (Eval.write w.display)
  | .input       => C.Rel C.Alike Eval.input Eval.input

variable {C}

theorem rel_print (h : C.Respects .print) {v w : Value} (hv : C.Alike v w) (a b : Value) :
    C.Rel C.Alike (Eval.print a v) (Eval.print b w) :=
  C.bind (h v w hv) fun _ _ _ => C.pure (C.refl _)

theorem rel_folds {op : Operator} {f : Value → Value → Eval Value} (hf : op.Folds f)
    (h : ∀ a ∈ op.actions, C.Respects a) {a b v w : Value} (ha : C.Alike a b) (hv : C.Alike v w) :
    C.Rel C.Alike (f a v) (f b w) := by
  cases hf
  case program => exact C.pure (C.refl _)
  case print   => exact rel_print (h .print (by simp [Operator.actions])) hv a b
  case add     => exact C.plus ha hv
  case arith   => exact C.arith _ ha hv

-- What combining one more value keeps, going through all arguments keeps.
theorem rel_evalFold {f : Value → Value → Eval Value} {ts : List Tree} {a b : Value}
    (hf : ∀ {a b v w}, C.Alike a b → C.Alike v w → C.Rel C.Alike (f a v) (f b w))
    (ht : ∀ t ∈ ts, C.Rel C.Alike t.eval t.eval) (ha : C.Alike a b) :
    C.Rel C.Alike (Tree.evalFold f a ts) (Tree.evalFold f b ts) := by
  induction ts generalizing a b
  case nil          => exact C.pure ha
  case cons t ts hi =>
    have ⟨ht, hts⟩ := List.forall_mem_cons.mp ht
    exact C.bind ht fun v w hv => C.bind (hf ha hv) fun _ _ ha => hi hts ha

theorem rel_apply {op : Operator} {ts : List Tree}
    (h : ∀ a ∈ (Tree.apply op ts).actions, C.Respects a)
    (hi : ∀ t ∈ ts, (∀ a ∈ t.actions, C.Respects a) → C.Rel C.Alike t.eval t.eval) :
    C.Rel C.Alike (Tree.apply op ts).eval (Tree.apply op ts).eval := by
  have hop (ho : op ≠ .assign) : ∀ a ∈ op.actions, C.Respects a :=
    fun a ha => h a (Tree.operator_actions_subset ho ha)
  have hts (ho : op ≠ .assign) : ∀ t ∈ ts, C.Rel C.Alike t.eval t.eval :=
    fun t ht => hi t ht fun a ha => h a (Tree.argument_actions_subset ho ht ha)
  have hx := Tree.form_apply op ts
  generalize (Tree.apply op ts).eval = x at hx ⊢
  cases hx
  case fails    => exact C.throw _
  case folds hf =>
    have ho : op ≠ .assign := by rintro rfl; cases hf
    exact rel_evalFold (rel_folds hf (hop ho)) (hts ho) (C.refl _)
  case inputs ho =>
    subst ho
    have hp := hop nofun .print (by simp [Operator.actions])
    have hn := hop nofun .input (by simp [Operator.actions])
    have hf {a b v w : Value} (_ : C.Alike a b) (hv : C.Alike v w) := rel_print hp hv a b
    exact C.bind (rel_evalFold hf (hts nofun) (C.refl _)) fun _ _ _ => hn
  case assigns name source ho ht _ =>
    subst ho ht
    have hs := hi source (by simp) fun a ha => h a (Tree.source_actions_subset ha)
    have hn := h (.assign name) (by simp [Tree.actions])
    exact C.bind hs fun v w hv => C.bind (hn v w hv) fun _ _ _ => C.pure (C.refl _)
  case converts t hf ht =>
    have ho : op ≠ .assign := by rintro rfl; cases hf
    have ht := hts ho t (by simp [ht])
    exact C.bind ht fun _ _ hv => C.convert hf hv

-- The induction behind every relation between two runs of a tree.
theorem rel_eval (t : Tree) (h : ∀ a ∈ t.actions, C.Respects a) : C.Rel C.Alike t.eval t.eval := by
  induction t using Tree.induction
  case const v        => exact C.pure (C.refl v)
  case ident name     => exact h (.lookup name) (by simp [Tree.actions])
  case apply op ts hi => exact rel_apply h hi

end Coupling
end Polish
