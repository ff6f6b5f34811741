import Polish.Proofs.Coupling

namespace Polish

-- Names and the values assigned to them, first to last.
abbrev Log := List (String × Value)

namespace Log

-- The log of a computation that assigns nothing.
def silent : Machine → Log :=
  fun _ => []

variable {α : Type}

-- The log of a computation and of what is done with its value, if it comes to one.
def bind (x : Eval α) (log : Machine → Log) (rest : α → Machine → Log) (m : Machine) : Log :=
  log m ++ match m.exec x with
    | (.ok a, m')   => rest a m'
    | (.error _, _) => []

theorem bind_of_ok {m m' : Machine} {x : Eval α} {a : α} (h : m.exec x = (.ok a, m'))
    (log : Machine → Log) (rest : α → Machine → Log) :
    bind x log rest m = log m ++ rest a m' := by
  rw [bind, h]

theorem bind_of_error {m m' : Machine} {x : Eval α} {e : Error} (h : m.exec x = (.error e, m'))
    (log : Machine → Log) (rest : α → Machine → Log) : bind x log rest m = log m := by
  rw [bind, h, List.append_nil]

theorem bind_silent (x : Eval α) (log : Machine → Log) : bind x log (fun _ => silent) = log := by
  funext m
  rw [bind]
  split <;> exact List.append_nil _

end Log

namespace Tree

mutual

-- The assignments that evaluating a tree completes. Those within the source of an assignment come
-- before it, and stand even if there is no value to assign in the end.
def journal : Tree → Machine → Log
  | .const _     => Log.silent
  | .ident _     => Log.silent
  | .apply op ts =>
    match op with
    | .program        => journalFold (fun _ _ => pure .none) .none ts
    | .print | .input => journalFold Eval.print .none ts
    | .add            => journalFold (fun acc v => Eval.ofExcept (acc.plus v)) .none ts
    | .arith op       => journalFold (fun acc v => Eval.ofExcept (acc.arith op v)) .none ts
    | .assign         =>
      match ts with
      | [.ident name, source] =>
        if source.isIdent then Log.silent
        else Log.bind source.eval source.journal fun v _ => [(name, v)]
      | _ => Log.silent
    | .toNumeric | .toText | .unary _ =>
      match ts with
      | [t] => t.journal
      | _   => Log.silent
    | .unknown => Log.silent

def journalFold (f : Value → Value → Eval Value) (acc : Value) : List Tree → Machine → Log
  | []      => Log.silent
  | t :: ts =>
    Log.bind t.eval t.journal fun v =>
      Log.bind (f acc v) Log.silent fun acc => journalFold f acc ts

end

mutual

-- The applications in a tree, each an operator and its arguments.
def applications : Tree → List (Operator × List Tree)
  | .const _     => []
  | .ident _     => []
  | .apply op ts => (op, ts) :: applicationsAll ts

def applicationsAll : List Tree → List (Operator × List Tree)
  | []      => []
  | t :: ts => t.applications ++ applicationsAll ts

end

theorem applications_subset_applicationsAll {t : Tree} {ts : List Tree} (h : t ∈ ts) :
    t.applications ⊆ applicationsAll ts := by
  induction h
  case head        => exact List.subset_append_left ..
  case tail _ _ hi => exact List.Subset.trans hi (List.subset_append_right ..)

section Journal

variable {op : Operator} {ts : List Tree}

theorem journal_single {t : Tree} {f : Value → Except Error Value} (h : op.Converts f) :
    (apply op [t]).journal = t.journal := by
  cases h <;> rw [journal]

theorem journal_folds {f : Value → Value → Eval Value} (h : op.Folds f) :
    (apply op ts).journal = journalFold f .none ts := by
  cases h <;> rw [journal]

theorem journal_refused {e : Error} (h : op.Refuses ts e) : (apply op ts).journal = Log.silent := by
  cases h
  case empty =>
    cases op <;> simp only [journal, journalFold]
  case notOne f hf _ hl =>
    match ts, hl with
    | [], _          => cases hf <;> simp only [journal]
    | _ :: _ :: _, _ => cases hf <;> simp only [journal]
  case notTwo _ hl =>
    match ts, hl with
    | [], _               => simp only [journal]
    | [_], _              => simp only [journal]
    | _ :: _ :: _ :: _, _ => simp only [journal]
  case notName target source ht =>
    cases target
    case ident => cases ht
    all_goals simp only [journal]
  case onlyName hs => rw [journal, if_pos hs]
  case unknown => rw [journal]

end Journal
end Tree

-- The errors that operators raise on values.
inductive Error.Operand : Error → Prop
  | untyped {op}   : Operand (.untypedOperand op)
  | text    {op}   : Operand (.textOperand op)
  | mixed   {op}   : Operand (.mixedOperands op)
  | numeral {text} : Operand (.notNumeric text)

namespace Value

theorem operand_of_plus {a v : Value} {e : Error} (h : a.plus v = .error e) : e.Operand := by
  unfold plus at h
  split at h <;> cases h
  case h_1 => exact .untyped
  case h_5 => exact .mixed

theorem operand_of_operand {op : Operator} {v : Value} {e : Error} (h : v.operand op = .error e) :
    e.Operand := by
  cases v <;> cases h
  case none => exact .untyped
  case text => exact .text

theorem operand_of_map {op : Operator} {f : Float → Value} {v : Value} {e : Error}
    (h : (v.operand op).map f = .error e) : e.Operand := by
  cases hv : v.operand op <;> rw [hv] at h <;> cases h
  exact operand_of_operand hv

theorem operand_of_arith {op : Operator.Arith} {a v : Value} {e : Error}
    (h : a.arith op v = .error e) : e.Operand := by
  unfold arith at h
  split at h
  case h_1 => exact operand_of_map h
  case h_2 => cases h
  case h_3 => cases h; exact .mixed

theorem operand_of_converts {op : Operator} {f : Value → Except Error Value} {v : Value} {e : Error}
    (hf : op.Converts f) (h : f v = .error e) : e.Operand := by
  cases hf
  case unary     => exact operand_of_map h
  case toText    => cases v <;> cases h; exact .untyped
  case toNumeric =>
    cases v
    case none     => cases h; exact .untyped
    case number   => cases h
    case text s   =>
      unfold toNumeric at h
      dsimp only at h
      split at h <;> cases h
      exact .numeral

end Value

-- A law of computations and their logs.
structure Law where
  Holds : {α : Type} → Eval α → (Machine → Log) → Prop
  pure  : ∀ {α : Type} (a : α), Holds (pure a) Log.silent
  bind  : ∀ {α β : Type} {x : Eval α} {f : α → Eval β} {log : Machine → Log}
    {rest : α → Machine → Log},
    (Holds x log) → (∀ a, Holds (f a) (rest a)) → Holds (x >>= f) (Log.bind x log rest)
  operand : ∀ {e : Error}, (e.Operand) → Holds (throw e : Eval Value) Log.silent

namespace Law

variable (L : Law)

def Respects : Action → Prop
  | .lookup name => L.Holds (Eval.lookup name) Log.silent
  | .assign name => ∀ v, L.Holds (Eval.assign name v) fun _ => [(name, v)]
  | .print       => ∀ text, L.Holds (Eval.write text) Log.silent
  | .input       => L.Holds Eval.input Log.silent

-- Refusing to apply an operator to some arguments is lawful, whatever error that is.
def Admits (op : Operator) (ts : List Tree) : Prop :=
  ∀ e, op.Refuses ts e → L.Holds (throw e : Eval Value) Log.silent

variable {L}

-- What is done with a value assigns nothing, if it is silent.
theorem bind_silent {α β : Type} {x : Eval α} {f : α → Eval β} {log : Machine → Log}
    (h : L.Holds x log) (hf : ∀ a, L.Holds (f a) Log.silent) : L.Holds (x >>= f) log :=
  Log.bind_silent x log ▸ L.bind h hf

theorem holds_ofExcept {x : Except Error Value} (h : ∀ e, x = .error e → e.Operand) :
    L.Holds (Eval.ofExcept x) Log.silent := by
  cases x
  case ok v    => exact L.pure v
  case error e => exact L.operand (h e rfl)

-- A word is read, and if there is none, that is an error.
theorem respects_input (hr : L.Holds Eval.readWord Log.silent)
    (he : L.Holds (throw (.stream "input stream is exhausted") : Eval Value) Log.silent) :
    L.Respects .input := by
  refine bind_silent hr fun word => ?_
  cases word
  case none      => exact he
  case some word => exact L.pure (Value.text word)

theorem holds_print (h : L.Respects .print) (a v : Value) : L.Holds (Eval.print a v) Log.silent :=
  bind_silent (h v.display) fun _ => L.pure _

theorem holds_folds {op : Operator} {f : Value → Value → Eval Value} (hf : op.Folds f)
    (h : ∀ a ∈ op.actions, L.Respects a) (a v : Value) : L.Holds (f a v) Log.silent := by
  cases hf
  case program => exact L.pure _
  case print   => exact holds_print (h .print (by simp [Operator.actions])) a v
  case add     => exact holds_ofExcept fun _ => Value.operand_of_plus
  case arith   => exact holds_ofExcept fun _ => Value.operand_of_arith

theorem holds_evalFold {f : Value → Value → Eval Value} {ts : List Tree} {acc : Value}
    (hf : ∀ a v, L.Holds (f a v) Log.silent) (ht : ∀ t ∈ ts, L.Holds t.eval t.journal) :
    L.Holds (Tree.evalFold f acc ts) (Tree.journalFold f acc ts) := by
  induction ts generalizing acc
  case nil          => exact L.pure acc
  case cons t ts hi =>
    have ⟨ht, hts⟩ := List.forall_mem_cons.mp ht
    exact L.bind ht fun v => L.bind (hf acc v) fun acc => hi hts

theorem holds_apply {op : Operator} {ts : List Tree}
    (ha : ∀ a ∈ (Tree.apply op ts).actions, L.Respects a) (hr : L.Admits op ts)
    (hi : ∀ t ∈ ts, (∀ a ∈ t.actions, L.Respects a) → L.Holds t.eval t.journal) :
    L.Holds (Tree.apply op ts).eval (Tree.apply op ts).journal := by
  have hop (ho : op ≠ .assign) : ∀ a ∈ op.actions, L.Respects a :=
    fun a h => ha a (Tree.operator_actions_subset ho h)
  have hts (ho : op ≠ .assign) : ∀ t ∈ ts, L.Holds t.eval t.journal :=
    fun t ht => hi t ht fun a h => ha a (Tree.argument_actions_subset ho ht h)
  have hx := Tree.form_apply op ts
  generalize (Tree.apply op ts).eval = x at hx ⊢
  cases hx
  case fails e h => exact Tree.journal_refused h ▸ hr e h
  case folds hf  =>
    have ho : op ≠ .assign := by rintro rfl; cases hf
    rw [Tree.journal_folds hf]
    exact holds_evalFold (holds_folds hf (hop ho)) (hts ho)
  case inputs ho =>
    subst ho
    have hp := hop nofun .print (by simp [Operator.actions])
    have hn := hop nofun .input (by simp [Operator.actions])
    rw [Tree.journal]
    exact bind_silent (holds_evalFold (holds_print hp) (hts nofun)) fun _ => hn
  case assigns name source ho ht hs =>
    subst ho ht
    have hn := ha (.assign name) (by simp [Tree.actions])
    have hi := hi source (by simp) fun a h => ha a (Tree.source_actions_subset h)
    rw [Tree.journal, if_neg (by simp [hs])]
    exact L.bind hi fun v => bind_silent (hn v) fun _ => L.pure _
  case converts t hf ht =>
    subst ht
    have ho : op ≠ .assign := by rintro rfl; cases hf
    rw [Tree.journal_single hf]
    refine bind_silent (hts ho t (by simp)) fun v => ?_
    exact holds_ofExcept fun _ => Value.operand_of_converts hf

theorem holds_eval (t : Tree) (ha : ∀ a ∈ t.actions, L.Respects a)
    (hr : ∀ p ∈ t.applications, L.Admits p.1 p.2) : L.Holds t.eval t.journal := by
  induction t using Tree.induction
  case const v        => exact L.pure v
  case ident name     => exact ha (.lookup name) (by simp [Tree.actions])
  case apply op ts hi =>
    rw [Tree.applications] at hr
    obtain ⟨ho, hts⟩ := List.forall_mem_cons.mp hr
    refine holds_apply ha ho fun t ht ha => hi t ht ha fun p hp => ?_
    exact hts p (Tree.applications_subset_applicationsAll ht hp)

end Law
end Polish
