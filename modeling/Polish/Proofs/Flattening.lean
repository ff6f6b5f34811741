import Polish.Proofs.Coupling

namespace Polish

-- An empty text is written by doing nothing, on every sink.
theorem Eval.write_empty : Eval.write "" = pure () := by
  funext m
  simp only [Eval.write, Sink.write_empty]
  rfl

namespace Tree

variable {f : Value → Value → Eval Value}

theorem evalFold_append (acc : Value) (ts us : List Tree) :
    evalFold f acc (ts ++ us) = evalFold f acc ts >>= fun acc => evalFold f acc us := by
  induction ts generalizing acc
  case nil          => simp [evalFold]
  case cons t ts hi => simp [evalFold, hi]

end Tree

-- Where the arguments before come to `acc`, a value that was combined from none may take the place
-- of the values it was combined from.
structure Absorbs (f : Value → Value → Eval Value) (acc : Value) : Prop where
  fresh : ∀ v, f acc v = f .none v
  keeps : ∀ {m m' a v w}, (Machine.exec m (f a v) = (.ok w, m')) → f acc w = pure w

namespace Absorbs

variable {f : Value → Value → Eval Value} {acc : Value}

-- The last value of a fold has come out of `f`.
theorem keeps_evalFold (h : Absorbs f acc) {t : Tree} {ts : List Tree} {m m' : Machine} {a w : Value}
    (he : m.exec (Tree.evalFold f a (t :: ts)) = (.ok w, m')) : f acc w = pure w := by
  induction ts generalizing t m a
  case nil =>
    rw [Tree.evalFold] at he
    obtain ⟨v, m₁, _, he⟩ := Machine.exists_exec_of_bind he
    obtain ⟨b, m₂, hb, he⟩ := Machine.exists_exec_of_bind he
    cases he
    exact h.keeps hb
  case cons u ts hi =>
    rw [Tree.evalFold] at he
    obtain ⟨v, m₁, _, he⟩ := Machine.exists_exec_of_bind he
    obtain ⟨b, m₂, _, he⟩ := Machine.exists_exec_of_bind he
    exact hi he

theorem evalFold_eq (h : Absorbs f acc) {ts : List Tree} (hn : ts ≠ []) :
    Tree.evalFold f acc ts = Tree.evalFold f .none ts := by
  cases ts
  case nil  => contradiction
  case cons => simp [Tree.evalFold, h.fresh]

-- An application of an operator among arguments of the same operator is as good as its own
-- arguments.
theorem exec_evalFold {op : Operator} (hf : op.Folds f) (h : Absorbs f acc) {ts : List Tree}
    (hn : ts ≠ []) (us : List Tree) (m : Machine) :
    m.exec (Tree.evalFold f acc (.apply op ts :: us)) = m.exec (Tree.evalFold f acc (ts ++ us)) := by
  rw [Tree.evalFold_append, h.evalFold_eq hn, Tree.evalFold, Tree.eval_folds hf hn]
  refine Machine.exec_bind_congr fun w m' hw => ?_
  cases ts
  case nil       => contradiction
  case cons t ts => rw [h.keeps_evalFold hw, pure_bind]

end Absorbs

namespace Value

-- A sum is a value that can be added to, and starts out as itself.
theorem plus_none_of_plus {a v w : Value} (h : a.plus v = .ok w) : Value.none.plus w = .ok w := by
  cases w
  case none => cases a <;> cases v <;> cases h
  all_goals rfl

theorem arith_none_of_arith {op : Operator.Arith} {a v w : Value} (h : a.arith op v = .ok w) :
    Value.none.arith op w = .ok w := by
  cases a <;> cases v <;> cases h
  all_goals rfl

end Value

namespace Absorbs

theorem program (acc : Value) : Absorbs (fun _ _ => pure .none) acc where
  fresh _ := rfl
  keeps h := by cases h; rfl

-- What a print comes to is printed as an empty text.
theorem print (acc : Value) : Absorbs Eval.print acc where
  fresh _ := rfl
  keeps h := by
    obtain ⟨_, _, _, h⟩ := Machine.exists_exec_of_bind h
    cases h
    simp [Eval.print, Value.display, Eval.write_empty]

theorem ofExcept {g : Value → Value → Except Error Value}
    (h : ∀ a v w, g a v = .ok w → g .none w = .ok w) :
    Absorbs (fun a v => Eval.ofExcept (g a v)) .none where
  fresh _ := rfl
  keeps {m m' a v w} he := by
    have hw : g a v = .ok w := congrArg Prod.fst he
    rw [h a v w hw]
    rfl

theorem of_folds {op : Operator} {f : Value → Value → Eval Value} (h : op.Folds f) :
    Absorbs f .none := by
  cases h
  case program => exact program _
  case print   => exact print _
  case add     => exact ofExcept fun _ _ _ => Value.plus_none_of_plus
  case arith   => exact ofExcept fun _ _ _ => Value.arith_none_of_arith

end Absorbs

-- What comes to pass is the same step by step, so it does not matter which arguments have effects
-- or fail.
theorem exec_eval_nested (m : Machine) {ts : List Tree} (hn : ts ≠ []) (ss us : List Tree) :
    (∀ op ∈ [Operator.add, .arith .sub, .arith .mul, .arith .div, .arith .mod, .arith .pow],
      m.exec (Tree.apply op (.apply op ts :: us)).eval = m.exec (Tree.apply op (ts ++ us)).eval) ∧
    (∀ op ∈ [Operator.program, .print],
      m.exec (Tree.apply op (ss ++ .apply op ts :: us)).eval =
        m.exec (Tree.apply op (ss ++ ts ++ us)).eval) := by
  constructor
  case left =>
    intro op ho
    have ⟨f, hf⟩ : ∃ f, op.Folds f := by
      simp only [List.mem_cons, List.not_mem_nil, or_false] at ho
      rcases ho with rfl | rfl | rfl | rfl | rfl | rfl
      case inl => exact ⟨_, .add⟩
      all_goals exact ⟨_, .arith⟩
    rw [Tree.eval_folds hf (by simp), Tree.eval_folds hf (by simp [hn])]
    exact (Absorbs.of_folds hf).exec_evalFold hf hn us m
  case right =>
    intro op ho
    have ⟨f, hf, ha⟩ : ∃ f, op.Folds f ∧ ∀ acc, Absorbs f acc := by
      simp only [List.mem_cons, List.not_mem_nil, or_false] at ho
      rcases ho with rfl | rfl
      case inl => exact ⟨_, .program, .program⟩
      case inr => exact ⟨_, .print, .print⟩
    rw [Tree.eval_folds hf (by simp), Tree.eval_folds hf (by simp [hn])]
    rw [List.append_assoc, Tree.evalFold_append, Tree.evalFold_append]
    exact Machine.exec_bind_congr fun acc m' _ => (ha acc).exec_evalFold hf hn us m'

-- What is printed within a sum is printed once, and no text can be joined to it.
theorem exec_eval_nested_fails_midway :
    let m : Machine := { input := { bytes := [] } }
    let ts : List Tree := [.const (.text "a"), .apply .print [.const (.text "b")]]
    ts ≠ [] ∧
    m.exec (Tree.apply .add [.apply .add ts, .ident "x"]).eval =
      (.error (.mixedOperands "add"), { m with output.written := [0x62] }) ∧
    m.exec (Tree.apply .print (ts ++ [.apply .print ts, .ident "x"])).eval =
      (.error (.unassigned "x"), { m with output.written := [0x61, 0x62, 0x61, 0x62] }) := by
  intro m ts
  have hn : ts ≠ [] := nofun
  have ⟨ha, hp⟩ := exec_eval_nested m hn ts [.ident "x"]
  refine ⟨hn, ha .add (by simp) |>.trans ?_, hp .print (by simp) |>.trans ?_⟩
  case refine_1 => rfl
  case refine_2 => rfl

end Polish
