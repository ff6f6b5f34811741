import Polish.Proofs.Law

namespace Polish

namespace Tree

mutual

-- The tree with a constant for every use of a name.
def subst (name : String) (v : Value) : Tree → Tree
  | .const w     => .const w
  | .ident other => if other = name then .const v else .ident other
  | .apply op ts => .apply op (substAll name v ts)

def substAll (name : String) (v : Value) : List Tree → List Tree
  | []      => []
  | t :: ts => t.subst name v :: substAll name v ts

end

variable {name : String} {v : Value}

theorem substAll_eq_map (ts : List Tree) : substAll name v ts = ts.map (subst name v) := by
  induction ts
  case nil          => rfl
  case cons t ts hi => simp [substAll, hi]

theorem subst_ident_of_ne {other : String} (h : other ≠ name) :
    (ident other).subst name v = ident other := by
  simp [subst, h]

theorem isIdent_subst {t : Tree} (h : t ≠ .ident name) : (t.subst name v).isIdent = t.isIdent := by
  cases t
  case ident other =>
    have hn : other ≠ name := by simpa using h
    rw [subst_ident_of_ne hn]
  all_goals simp [subst, isIdent]

end Tree

-- Arguments are refused for their number, or for being names or not, and none of this changes.
theorem Operator.Refuses.subst {op : Operator} {ts : List Tree} {e : Error} {name : String}
    (h : op.Refuses ts e) (ha : op = .assign → .ident name ∉ ts) (v : Value) :
    op.Refuses (ts.map (Tree.subst name v)) e := by
  cases h
  case empty           => exact .empty
  case notOne hf hn hl => exact .notOne hf (by simpa using hn) (by simpa using hl)
  case notTwo hn hl    => exact .notTwo (by simpa using hn) (by simpa using hl)
  case unknown hn      => exact .unknown (by simpa using hn)
  case notName target source ht =>
    have ⟨hn, _⟩ : .ident name ≠ target ∧ .ident name ≠ source := by simpa using ha rfl
    exact .notName (by rwa [Tree.isIdent_subst hn.symm])
  case onlyName other source hs =>
    have ⟨ho, hn⟩ : name ≠ other ∧ .ident name ≠ source := by simpa using ha rfl
    simp only [List.map_cons, List.map_nil, Tree.subst_ident_of_ne ho.symm]
    exact .onlyName (by rwa [Tree.isIdent_subst hn.symm])

-- Two computations do the same where a name means a value, and it goes on meaning that value.
def Inlines {α : Type} (name : String) (v : Value) (x y : Eval α) : Prop :=
  ∀ m : Machine, (m.env.get? name = some v) →
    m.exec x = m.exec y ∧ (m.exec x).2.env.get? name = some v

namespace Inlines

variable {α β : Type} {name : String} {v : Value}

-- A computation that leaves the variables as they are.
theorem silent {x : Eval α} (h : ∀ m : Machine, (m.exec x).2.env = m.env) : Inlines name v x x :=
  fun m hm => ⟨rfl, h m ▸ hm⟩

theorem bind {x y : Eval α} {f g : α → Eval β} (h : Inlines name v x y)
    (hf : ∀ a, Inlines name v (f a) (g a)) : Inlines name v (x >>= f) (y >>= g) := by
  intro m hm
  have ⟨he, hb⟩ := h m hm
  generalize hx : m.exec x = o at he hb
  obtain ⟨r, m'⟩ := o
  cases r
  case error e =>
    rw [Machine.exec_bind_of_error hx, Machine.exec_bind_of_error he.symm]
    exact ⟨rfl, hb⟩
  case ok a =>
    rw [Machine.exec_bind_of_ok hx, Machine.exec_bind_of_ok he.symm]
    exact hf a m' hb

def law (name : String) (v : Value) : Law where
  Holds x _ := Inlines name v x x
  pure _    := silent fun _ => rfl
  bind      := bind
  operand _ := silent fun _ => rfl

theorem lookup (other : String) : Inlines name v (Eval.lookup other) (Eval.lookup other) :=
  silent fun m => by rw [Machine.exec_lookup]

theorem assign {other : String} (h : other ≠ name) (w : Value) :
    Inlines name v (Eval.assign other w) (Eval.assign other w) :=
  fun _ hm => ⟨rfl, (Env.get?_set_of_ne h.symm).trans hm⟩

theorem input : Inlines name v Eval.input Eval.input :=
  Law.respects_input (L := law name v) (silent fun _ => rfl) (silent fun _ => rfl)

theorem print (a w : Value) : Inlines name v (Eval.print a w) (Eval.print a w) :=
  Law.holds_print (L := law name v) (fun _ => silent fun _ => rfl) a w

theorem folds {op : Operator} {f : Value → Value → Eval Value} (h : op.Folds f) (a w : Value) :
    Inlines name v (f a w) (f a w) := by
  cases h
  case print => exact print a w
  all_goals exact silent fun _ => rfl

theorem evalFold {f : Value → Value → Eval Value} {ts : List Tree} {acc : Value}
    (hf : ∀ a w, Inlines name v (f a w) (f a w))
    (ht : ∀ t ∈ ts, Inlines name v t.eval (t.subst name v).eval) :
    Inlines name v (Tree.evalFold f acc ts) (Tree.evalFold f acc (ts.map (Tree.subst name v))) := by
  induction ts generalizing acc
  case nil          => exact silent fun _ => rfl
  case cons t ts hi =>
    have ⟨ht, hts⟩ := List.forall_mem_cons.mp ht
    exact bind ht fun w => bind (hf acc w) fun _ => hi hts

theorem apply {op : Operator} {ts : List Tree} (ha : op = .assign → .ident name ∉ ts)
    (hi : ∀ t ∈ ts, Inlines name v t.eval (t.subst name v).eval) :
    Inlines name v (Tree.apply op ts).eval (Tree.apply op (ts.map (Tree.subst name v))).eval := by
  by_cases hn : ts = []
  case pos =>
    subst hn
    rw [List.map_nil, Tree.eval_refused .empty]
    exact silent fun _ => rfl
  case neg =>
    have hm : ts.map (Tree.subst name v) ≠ [] := by simpa using hn
    have hx := Tree.form_apply op ts
    generalize (Tree.apply op ts).eval = x at hx ⊢
    cases hx
    case fails hr =>
      rw [Tree.eval_refused (hr.subst ha v)]
      exact silent fun _ => rfl
    case folds hf =>
      rw [Tree.eval_folds hf hm]
      exact evalFold (folds hf) hi
    case inputs ho =>
      subst ho
      rw [Tree.eval_inputs hm]
      exact bind (evalFold print hi) fun _ => input
    case assigns other source ho ht hs =>
      subst ho ht
      have ⟨ho, hn⟩ : name ≠ other ∧ .ident name ≠ source := by simpa using ha rfl
      simp only [List.map_cons, List.map_nil, Tree.subst_ident_of_ne ho.symm]
      rw [Tree.eval_assigns (by rwa [Tree.isIdent_subst hn.symm])]
      exact bind (hi source (by simp)) fun w => bind (assign ho.symm w) fun _ => silent fun _ => rfl
    case converts t hf ht =>
      subst ht
      rw [List.map_singleton, Tree.eval_converts hf]
      exact bind (hi t (by simp)) fun _ => silent fun _ => rfl

theorem eval (t : Tree) (ha : ∀ p ∈ t.applications, p.1 = .assign → .ident name ∉ p.2) :
    Inlines name v t.eval (t.subst name v).eval := by
  induction t using Tree.induction
  case const => exact silent fun _ => rfl
  case ident other =>
    by_cases ho : other = name
    case neg =>
      rw [Tree.subst_ident_of_ne ho]
      exact lookup other
    case pos =>
      intro m hm
      simp [Tree.subst, Tree.eval, ho, Machine.exec_lookup, hm]
  case apply op ts hi =>
    rw [Tree.applications] at ha
    obtain ⟨ho, hts⟩ := List.forall_mem_cons.mp ha
    rw [Tree.subst, Tree.substAll_eq_map]
    refine apply ho fun t ht => hi t ht fun p hp => ?_
    exact hts p (Tree.applications_subset_applicationsAll ht hp)

end Inlines

-- A variable that is never assigned to means the same throughout an evaluation.
theorem exec_eval_subst (t : Tree) {name : String} {v : Value}
    (ha : ∀ ts, (.assign, ts) ∈ t.applications → .ident name ∉ ts) {m : Machine}
    (hm : m.env.get? name = some v) : m.exec t.eval = m.exec (t.subst name v).eval :=
  Inlines.eval t (by rintro ⟨_, ts⟩ hp rfl; exact ha ts hp) m hm |>.left

-- Another variable is assigned to and used, and evaluation fails in the end.
theorem exec_eval_subst_fails_at_end :
    let t : Tree := .apply .program [
      .apply .assign [.ident "y", .apply .add [.ident "x", .const (.text "b")]],
      .apply .print [.ident "x", .ident "y"], .ident "z"]
    let u : Tree := .apply .program [
      .apply .assign [.ident "y", .apply .add [.const (.text "a"), .const (.text "b")]],
      .apply .print [.const (.text "a"), .ident "y"], .ident "z"]
    let env := Env.empty.set "x" (.text "a")
    let m : Machine := { env, input := { bytes := [] } }
    let m' : Machine := { m with env := env.set "y" (.text "ab"), output.written := [0x61, 0x61, 0x62] }
    (∀ ts, (.assign, ts) ∈ t.applications → .ident "x" ∉ ts) ∧ env.get? "x" = some (.text "a") ∧
    t.subst "x" (.text "a") = u ∧ m.exec u.eval = (.error (.unassigned "z"), m') := by
  intro t u env m m'
  have ha : ∀ ts, (.assign, ts) ∈ t.applications → .ident "x" ∉ ts := by
    simp [t, Tree.applications, Tree.applicationsAll]
  have hx : m.env.get? "x" = some (.text "a") := rfl
  have hu : t.subst "x" (.text "a") = u := rfl
  have ht : m.exec t.eval = (.error (.unassigned "z"), m') := rfl
  have he := exec_eval_subst t ha hx
  rw [hu, ht] at he
  exact ⟨ha, hx, hu, he.symm⟩

-- The source of an assignment may be a constant, but not a name.
example :
    let t : Tree := .apply .assign [.ident "y", .ident "x"]
    let m : Machine := { env := Env.empty.set "x" .none, input := { bytes := [] } }
    (m.exec t.eval).1 = .error (.invalidArguments "assign"
      "second argument must be a constant value or an expression") ∧
    (m.exec (t.subst "x" .none).eval).1 = .ok .none :=
  ⟨rfl, rfl⟩

end Polish
