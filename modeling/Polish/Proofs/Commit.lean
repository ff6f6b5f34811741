import Polish.Proofs.Law

namespace Polish

namespace Env

-- The variables after the assignments of a log, made one after the other.
def commit (env : Env) (log : Log) : Env :=
  log.foldl (fun env b => env.set b.1 b.2) env

theorem commit_append (env : Env) (log rest : Log) :
    env.commit (log ++ rest) = (env.commit log).commit rest :=
  List.foldl_append

-- The names that some actions look up mean the same.
def AgreeFor (actions : List Action) (env env' : Env) : Prop :=
  ∀ name, .lookup name ∈ actions → env.get? name = env'.get? name

namespace AgreeFor

variable {actions : List Action} {env env' : Env}

theorem set (h : AgreeFor actions env env') (name : String) (v : Value) :
    AgreeFor actions (env.set name v) (env'.set name v) := by
  intro other ho
  by_cases hn : other = name
  case pos => simp [hn]
  case neg => rw [get?_set_of_ne hn, get?_set_of_ne hn, h other ho]

theorem commit (h : AgreeFor actions env env') (log : Log) :
    AgreeFor actions (env.commit log) (env'.commit log) := by
  induction log generalizing env env'
  case nil           => exact h
  case cons b log hi => exact hi (h.set b.1 b.2)

end AgreeFor
end Env

-- On machines that differ in other variables than the ones looked up, a computation has the same
-- outcome, up to variables in which its log is all that it changes.
structure Commits {α : Type} (actions : List Action) (x : Eval α) (log : Machine → Log)
    (m : Machine) (env : Env) : Prop where
  same  : log { m with env } = log m
  names : ∀ b ∈ log m, .assign b.1 ∈ actions
  runs  : ∃ result input output,
    m.exec x = (result, ⟨m.env.commit (log m), input, output⟩) ∧
    { m with env }.exec x = (result, ⟨env.commit (log m), input, output⟩)

namespace Commits

variable {α β : Type} {actions : List Action} {m : Machine} {env : Env}

-- A computation that does not use the variables.
theorem silent {x : Eval α} (result : Except Error α) (input : Source) (output : Sink)
    (h : ∀ env, { m with env }.exec x = (result, ⟨env, input, output⟩)) :
    Commits actions x Log.silent m env where
  same  := rfl
  names := nofun
  runs  := ⟨result, input, output, h m.env, h env⟩

theorem bind {x : Eval α} {f : α → Eval β} {log : Machine → Log} {rest : α → Machine → Log}
    (he : m.env.AgreeFor actions env) (h : Commits actions x log m env)
    (hf : ∀ a m env, m.env.AgreeFor actions env → Commits actions (f a) (rest a) m env) :
    Commits actions (x >>= f) (Log.bind x log rest) m env := by
  have ⟨result, input, output, hm, hn⟩ := h.runs
  cases result
  case error e =>
    have hl := Log.bind_of_error hm log rest
    constructor
    case same  => rw [hl, Log.bind_of_error hn, h.same]
    case names => exact hl ▸ h.names
    case runs  =>
      rw [hl]
      exact ⟨_, _, _, Machine.exec_bind_of_error hm f, Machine.exec_bind_of_error hn f⟩
  case ok a =>
    -- Where the first computation ends, the variables still agree.
    have ha := hf a ⟨m.env.commit (log m), input, output⟩ _ (he.commit (log m))
    have ⟨result', input', output', hm', hn'⟩ := ha.runs
    have hl := Log.bind_of_ok hm log rest
    constructor
    case same  => rw [hl, Log.bind_of_ok hn, h.same, ha.same]
    case names => exact hl ▸ List.forall_mem_append.mpr ⟨h.names, ha.names⟩
    case runs  =>
      rw [hl, Env.commit_append, Env.commit_append]
      refine ⟨result', input', output', ?_, ?_⟩
      · exact (Machine.exec_bind_of_ok hm f).trans hm'
      · exact (Machine.exec_bind_of_ok hn f).trans hn'

end Commits

namespace Commit

def law (actions : List Action) : Law where
  Holds x log := ∀ m env, m.env.AgreeFor actions env → Commits actions x log m env
  pure a m _ _ := .silent (.ok a) m.input m.output fun _ => rfl
  bind h hf m env he := .bind he (h m env he) hf
  operand {e} _ m _ _ := .silent (.error e) m.input m.output fun _ => rfl

variable {actions : List Action}

theorem holds_throw {α : Type} (e : Error) : (law actions).Holds (throw e : Eval α) Log.silent :=
  fun m _ _ => .silent (.error e) m.input m.output fun _ => rfl

theorem holds_write (text : String) : (law actions).Holds (Eval.write text) Log.silent :=
  fun m _ _ => .silent (m.output.write text).1 m.input (m.output.write text).2 fun _ => rfl

theorem holds_readWord : (law actions).Holds Eval.readWord Log.silent :=
  fun m _ _ => .silent m.input.readWord.1 m.input.readWord.2 m.output fun _ => rfl

theorem holds_lookup {name : String} (h : .lookup name ∈ actions) :
    (law actions).Holds (Eval.lookup name) Log.silent := by
  intro m env he
  constructor
  case same  => rfl
  case names => nofun
  case runs  =>
    refine ⟨_, m.input, m.output, m.exec_lookup name, ?_⟩
    rw [Machine.exec_lookup, he name h]
    rfl

theorem holds_assign {name : String} (h : .assign name ∈ actions) (v : Value) :
    (law actions).Holds (Eval.assign name v) fun _ => [(name, v)] := by
  intro m env _
  constructor
  case same  => rfl
  case names => simpa using h
  case runs  => exact ⟨.ok (), m.input, m.output, rfl, rfl⟩

theorem respects : (a : Action) → (a ∈ actions) → (law actions).Respects a
  | .lookup _, h => holds_lookup h
  | .assign _, h => holds_assign h
  | .print,    _ => holds_write
  | .input,    _ => Law.respects_input holds_readWord (holds_throw _)

theorem commits_eval (t : Tree) {m : Machine} {env : Env} (h : m.env.AgreeFor t.actions env) :
    Commits t.actions t.eval t.journal m env :=
  Law.holds_eval (L := law t.actions) t respects (fun _ _ e _ => holds_throw e) m env h

end Commit

-- The one log is that of the assignments completed, on both machines.
theorem eval_commits_log (t : Tree) {env env' : Env} (input : Source) (output : Sink)
    (h : ∀ name, .lookup name ∈ t.actions → env.get? name = env'.get? name) :
    let m : Machine := { env, input, output }
    let n : Machine := { env := env', input, output }
    (m.exec t.eval).1 = (n.exec t.eval).1 ∧
    (m.exec t.eval).2.output = (n.exec t.eval).2.output ∧
    (m.exec t.eval).2.input = (n.exec t.eval).2.input ∧
    ∃ log, (∀ b ∈ log, .assign b.1 ∈ t.actions) ∧
      (m.exec t.eval).2.env = env.commit log ∧ (n.exec t.eval).2.env = env'.commit log ∧
      t.journal m = log ∧ t.journal n = log := by
  intro m n
  have hc := Commit.commits_eval t (m := m) h
  have ⟨result, input', output', hm, hn⟩ := hc.runs
  change n.exec t.eval = _ at hn
  rw [hm, hn]
  exact ⟨rfl, rfl, rfl, t.journal m, hc.names, rfl, rfl, rfl, hc.same⟩

-- The source of `z` comes to nothing that could be added. By then `x` and `w` are assigned.
theorem eval_commits_log_of_failed_source :
    let t : Tree := .apply .program [
      .apply .assign [.ident "x", .apply .toText [.ident "y"]],
      .apply .assign [.ident "z", .apply .add [
        .apply .assign [.ident "w", .apply .toText [.ident "y"]]]]]
    let env := Env.empty.set "y" (.text "a")
    let env' := env.set "z" (.text "b")
    let m : Machine := { env, input := { bytes := [] } }
    let n : Machine := { m with env := env' }
    let log := [("x", .text "a"), ("w", .text "a")]
    (∀ name, .lookup name ∈ t.actions → env.get? name = env'.get? name) ∧
    (n.exec t.eval).1 = .error (.untypedOperand "add") ∧
    (m.exec t.eval).2.env = env.commit log ∧ (n.exec t.eval).2.env = env'.commit log := by
  intro t env env' m n log
  have h : ∀ name, .lookup name ∈ t.actions → env.get? name = env'.get? name := by
    intro name hn
    simp [t, Tree.actions, Tree.actionsAll, Operator.actions] at hn
    subst hn
    rfl
  obtain ⟨hr, _, _, log', _, hm, hn, hl, _⟩ := eval_commits_log t { bytes := [] } {} h
  have hl : log' = log := hl.symm
  exact ⟨h, hr.symm, hl ▸ hm, hl ▸ hn⟩

end Polish
