import Polish.Proofs.Coupling

namespace Polish

-- The same names are bound, and each to values of one kind.
def Env.SameKinds (env env' : Env) : Prop :=
  ∀ name, (env.get? name).map Value.kind = (env'.get? name).map Value.kind

theorem Env.SameKinds.set {env env' : Env} {v w : Value} (h : env.SameKinds env')
    (hv : v.kind = w.kind) (name : String) : (env.set name v).SameKinds (env'.set name w) := by
  intro other
  by_cases ho : other = name
  case pos => simp [ho, hv]
  case neg => rw [get?_set_of_ne ho, get?_set_of_ne ho, h other]

-- The errors that hang on what a text holds or on the streams.
def Error.isExternal : Error → Bool
  | .notNumeric _ | .stream _ => true
  | _                         => false

namespace Machine

variable (m : Machine)

theorem exec_write (text : String) :
    ∃ output, m.exec (Eval.write text) = (.ok (), { m with output }) ∨
      m.exec (Eval.write text) = (.error Sink.fullError, { m with output }) := by
  refine ⟨(m.output.write text).2, ?_⟩
  cases m.output.write_result text
  case inl h => exact .inl (by rw [exec, Eval.write, h])
  case inr h => exact .inr (by rw [exec, Eval.write, h])

-- What is read is a text, unless the stream fails or has come to its end.
theorem exec_input :
    ∃ input, (∃ word, m.exec Eval.input = (.ok (.text word), { m with input })) ∨
      (∃ message, m.exec Eval.input = (.error (.stream message), { m with input })) := by
  refine ⟨m.input.readWord.2, ?_⟩
  rw [Eval.input, exec_bind]
  have he : m.exec Eval.readWord = (m.input.readWord.1, { m with input := m.input.readWord.2 }) := rfl
  cases m.input.readWord_result
  case inl h =>
    have ⟨word, h⟩ := h
    rw [he, h]
    cases word
    case none      => exact .inr ⟨_, rfl⟩
    case some word => exact .inl ⟨word, rfl⟩
  case inr h =>
    rw [he, h]
    exact .inr ⟨_, rfl⟩

end Machine

namespace Kinds

-- Outcomes of two runs that went the same way, or of which one met an external error.
inductive Agree {α : Type} (R : α → α → Prop) :
    Except Error α × Machine → Except Error α × Machine → Prop
  | ok {a b m n} :
    (R a b) → (m.env.SameKinds n.env) → Agree R (.ok a, m) (.ok b, n)
  | error {e m n} :
    (m.env.SameKinds n.env) → Agree R (.error e, m) (.error e, n)
  | left {e m o} :
    (e.isExternal) → Agree R (.error e, m) o
  | right {e n o} :
    (e.isExternal) → Agree R o (.error e, n)

def Alike (v w : Value) : Prop :=
  v.kind = w.kind

def Rel {α : Type} (R : α → α → Prop) (x y : Eval α) : Prop :=
  ∀ m n : Machine, m.env.SameKinds n.env → Agree R (m.exec x) (n.exec y)

section Rules

variable {α β : Type} {R : α → α → Prop} {Q : β → β → Prop}

theorem Agree.bind {x y : Eval α} {f g : α → Eval β} {m n : Machine}
    (h : Agree R (m.exec x) (n.exec y)) (hf : ∀ a b, R a b → Rel Q (f a) (g b)) :
    Agree Q (m.exec (x >>= f)) (n.exec (y >>= g)) := by
  rw [Machine.exec_bind, Machine.exec_bind]
  generalize m.exec x = o at h ⊢
  generalize n.exec y = o' at h ⊢
  cases h
  case ok ha he => exact hf _ _ ha _ _ he
  case error he => exact .error he
  case left he  => exact .left he
  case right he => exact .right he

theorem rel_ofExcept {x y : Except Error Value} (h : x.map Value.kind = y.map Value.kind) :
    Rel Alike (Eval.ofExcept x) (Eval.ofExcept y) := by
  intro m n he
  match x, y, h with
  | .ok _,    .ok _,    h => exact .ok (Except.ok.inj h) he
  | .error _, .error _, h => exact Except.error.inj h ▸ .error he

end Rules

theorem plus_kind {a b v w : Value} (ha : a.kind = b.kind) (hv : v.kind = w.kind) :
    (a.plus v).map Value.kind = (b.plus w).map Value.kind := by
  cases a <;> cases b <;> cases ha <;> cases v <;> cases w <;> cases hv
  all_goals simp only [Value.plus, Except.map, Value.kind]

theorem arith_kind {a b v w : Value} (op : Operator.Arith) (ha : a.kind = b.kind)
    (hv : v.kind = w.kind) :
    (a.arith op v).map Value.kind = (b.arith op w).map Value.kind := by
  cases a <;> cases b <;> cases ha <;> cases v <;> cases w <;> cases hv
  all_goals simp only [Value.arith, Value.operand, Except.map, Value.kind]

theorem toText_kind {v w : Value} (h : v.kind = w.kind) :
    v.toText.map Value.kind = w.toText.map Value.kind := by
  cases v <;> cases w <;> cases h
  all_goals simp only [Value.toText, Except.map, Value.kind]

theorem unary_kind {v w : Value} (f : Operator.Unary) (h : v.kind = w.kind) :
    (v.unary f).map Value.kind = (w.unary f).map Value.kind := by
  cases v <;> cases w <;> cases h
  all_goals simp only [Value.unary, Value.operand, Except.map, Function.comp_apply, Value.kind]

theorem toNumeric_text (s : String) :
    (∃ x, (Value.text s).toNumeric = .ok (.number x)) ∨
      (Value.text s).toNumeric = .error (.notNumeric s) := by
  unfold Value.toNumeric
  dsimp only
  split
  case h_1 x _ => exact .inl ⟨x, rfl⟩
  case h_2     => exact .inr rfl

-- Of the conversions only the reading of a number looks at what it is given.
theorem rel_toNumeric {v w : Value} (h : v.kind = w.kind) :
    Rel Alike (Eval.ofExcept v.toNumeric) (Eval.ofExcept w.toNumeric) := by
  cases v <;> cases w <;> cases h
  case none.none     => exact rel_ofExcept rfl
  case number.number => exact rel_ofExcept rfl
  case text.text s t =>
    intro m n he
    match toNumeric_text s, toNumeric_text t with
    | .inl ⟨x, hs⟩, .inl ⟨y, ht⟩ => rw [hs, ht]; exact .ok rfl he
    | .inr hs, _ => rw [hs]; exact .left rfl
    | _, .inr ht => rw [ht]; exact .right rfl

theorem rel_convert {op : Operator} {f : Value → Except Error Value} {v w : Value}
    (hf : op.Converts f) (h : v.kind = w.kind) :
    Rel Alike (Eval.ofExcept (f v)) (Eval.ofExcept (f w)) := by
  cases hf
  case toNumeric => exact rel_toNumeric h
  case toText    => exact rel_ofExcept (toText_kind h)
  case unary f   => exact rel_ofExcept (unary_kind f h)

def coupling : Coupling where
  Rel         := Rel
  Alike       := Alike
  refl _      := rfl
  pure h _ _  := .ok h
  throw _ _ _ := .error
  bind h hf m n he := (h m n he).bind hf
  plus ha hv  := rel_ofExcept (plus_kind ha hv)
  arith op ha hv := rel_ofExcept (arith_kind op ha hv)
  convert     := rel_convert

theorem rel_lookup (name : String) : Rel Alike (Eval.lookup name) (Eval.lookup name) := by
  intro m n he
  have h := he name
  rw [Machine.exec, Machine.exec, Eval.lookup, Eval.lookup]
  generalize m.env.get? name = v at h ⊢
  generalize n.env.get? name = w at h ⊢
  cases v <;> cases w
  case none.none => exact .error he
  case some.some => exact .ok (Option.some.inj h) he
  case none.some => cases h
  case some.none => cases h

theorem rel_write (text text' : String) : Rel Eq (Eval.write text) (Eval.write text') := by
  intro m n he
  match m.exec_write text, n.exec_write text' with
  | ⟨_, .inl hm⟩, ⟨_, .inl hn⟩ => rw [hm, hn]; exact .ok rfl he
  | ⟨_, .inr hm⟩, _ => rw [hm]; exact .left rfl
  | _, ⟨_, .inr hn⟩ => rw [hn]; exact .right rfl

theorem rel_input : Rel Alike Eval.input Eval.input := by
  intro m n he
  match m.exec_input, n.exec_input with
  | ⟨_, .inl ⟨_, hm⟩⟩, ⟨_, .inl ⟨_, hn⟩⟩ => rw [hm, hn]; exact .ok rfl he
  | ⟨_, .inr ⟨_, hm⟩⟩, _ => rw [hm]; exact .left rfl
  | _, ⟨_, .inr ⟨_, hn⟩⟩ => rw [hn]; exact .right rfl

theorem respects : (a : Action) → coupling.Respects a
  | .lookup name => rel_lookup name
  | .assign name => fun _ _ hv _ _ he => .ok rfl (he.set hv name)
  | .print       => fun v w _ => rel_write v.display w.display
  | .input       => rel_input

theorem agree_eval (t : Tree) {m n : Machine} (h : m.env.SameKinds n.env) :
    Agree Alike (m.exec t.eval) (n.exec t.eval) :=
  Coupling.rel_eval (C := coupling) t (fun a _ => respects a) m n h

end Kinds

-- Two runs part ways only at a text that is no number, or at a stream that fails.
theorem eval_kinds_independent (t : Tree) {m n : Machine} (h : m.env.SameKinds n.env)
    (hm : ∀ e, (m.exec t.eval).1 = .error e → ¬e.isExternal)
    (hn : ∀ e, (n.exec t.eval).1 = .error e → ¬e.isExternal) :
    ((∃ v w, (m.exec t.eval).1 = .ok v ∧ (n.exec t.eval).1 = .ok w ∧ v.kind = w.kind) ∨
      (∃ e, (m.exec t.eval).1 = .error e ∧ (n.exec t.eval).1 = .error e)) ∧
    (m.exec t.eval).2.env.SameKinds (n.exec t.eval).2.env := by
  have ha := Kinds.agree_eval t h
  generalize m.exec t.eval = o at ha hm ⊢
  generalize n.exec t.eval = o' at ha hn ⊢
  cases ha
  case ok v w _ _ hk he => exact ⟨.inl ⟨v, w, rfl, rfl, hk⟩, he⟩
  case error e _ _ he   => exact ⟨.inr ⟨e, rfl, rfl⟩, he⟩
  case left he          => exact absurd he (hm _ rfl)
  case right he         => exact absurd he (hn _ rfl)

-- Whatever text `x` is, a text is assigned to `y` and cannot be subtracted from.
theorem eval_kinds_independent_sub :
    let t : Tree := .apply .program [
      .apply .assign [.ident "y", .apply .add [.ident "x", .const (.text "!")]],
      .apply (.arith .sub) [.ident "y", .const (.number 1)]]
    let m : Machine := { env := Env.empty.set "x" (.text "a"), input := { bytes := [] } }
    let n : Machine := { env := Env.empty.set "x" (.text ""), input := { bytes := [0x31] } }
    m.env.SameKinds n.env ∧ (m.exec t.eval).1 = .error (.textOperand "sub") ∧
    (n.exec t.eval).1 = .error (.textOperand "sub") ∧
    (m.exec t.eval).2.env.SameKinds (n.exec t.eval).2.env := by
  intro t m n
  have h₀ : Env.empty.SameKinds Env.empty := fun _ => rfl
  have h : m.env.SameKinds n.env := h₀.set (v := .text "a") (w := .text "") rfl "x"
  have hm : (m.exec t.eval).1 = .error (.textOperand "sub") := rfl
  have hn : (n.exec t.eval).1 = .error (.textOperand "sub") := rfl
  have he : ∀ e, .error (.textOperand "sub") = (.error e : Except Error Value) → ¬e.isExternal := by
    rintro e ⟨⟩
    decide
  exact ⟨h, hm, hn, eval_kinds_independent t h (hm ▸ he) (hn ▸ he) |>.right⟩

end Polish
