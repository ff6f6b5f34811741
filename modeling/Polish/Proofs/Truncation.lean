import Polish.Proofs.Law

namespace Polish

namespace Machine

-- Leaves room for `n` octets in all.
def limit (n : Nat) (m : Machine) : Machine :=
  { m with output.room := some (n - m.output.written.length) }

-- A later machine, with all that was written and still no limit.
structure Extends (m m' : Machine) : Prop where
  unlimited : m'.output.room = none
  written   : m.output.written <+: m'.output.written

theorem Extends.trans {m₁ m₂ m₃ : Machine} (h : Extends m₁ m₂) (h' : Extends m₂ m₃) :
    Extends m₁ m₃ :=
  ⟨h'.unlimited, h.written.trans h'.written⟩

end Machine

-- How an outcome without a limit compares to the one with room for `n` octets.
inductive Truncated {α : Type} (n : Nat) :
    Except Error α × Machine → Except Error α × Machine → Prop
  | fits {r m} :
    (m.output.written.length ≤ n) → Truncated n (r, m) (r, m.limit n)
  | full {o m} :
    (n < o.2.output.written.length) → (m.output.written = o.2.output.written.take n) →
    Truncated n o (.error Sink.fullError, m)

-- Nothing that is written later makes a difference to octets that have been cut off.
theorem Truncated.later {α β : Type} {n : Nat} {o : Except Error α × Machine}
    {o' : Except Error β × Machine} {m : Machine} (h : n < o.2.output.written.length)
    (hm : m.output.written = o.2.output.written.take n) (he : o.2.Extends o'.2) :
    Truncated n o' (.error Sink.fullError, m) := by
  refine .full (Nat.lt_of_lt_of_le h he.written.length_le) ?_
  rw [hm, List.prefix_iff_eq_take.mp he.written, List.take_take, Nat.min_eq_left (Nat.le_of_lt h)]

-- A computation that only adds to what is written, and that a limit cuts off.
structure Truncates {α : Type} (n : Nat) (x : Eval α) : Prop where
  grows : ∀ m : Machine, m.output.room = none → m.Extends (m.exec x).2
  cuts  : ∀ m : Machine, m.output.room = none → m.output.written.length ≤ n →
    Truncated n (m.exec x) ((m.limit n).exec x)

namespace Truncates

variable {α β : Type} {n : Nat}

-- A computation that does not use the output.
theorem silent {x : Eval α} (h : ∀ env input, ∃ r env' input', ∀ output,
    Machine.exec ⟨env, input, output⟩ x = (r, ⟨env', input', output⟩)) : Truncates n x := by
  constructor
  case grows =>
    intro m hu
    have ⟨r, env, input, h⟩ := h m.env m.input
    rw [h m.output]
    exact ⟨hu, List.prefix_refl _⟩
  case cuts =>
    intro m _ hl
    have ⟨r, env, input, h⟩ := h m.env m.input
    rw [h m.output, Machine.limit, h]
    exact .fits hl

-- What is done with the value of a computation adds to what the computation has written.
theorem grows_rest {x : Eval α} {f : α → Eval β} (hf : ∀ a, Truncates n (f a)) {m : Machine}
    (hu : (m.exec x).2.output.room = none) : (m.exec x).2.Extends (m.exec (x >>= f)).2 := by
  match hx : m.exec x with
  | (.error e, m') =>
    rw [hx] at hu
    rw [Machine.exec_bind_of_error hx]
    exact ⟨hu, List.prefix_refl _⟩
  | (.ok a, m') =>
    rw [hx] at hu
    rw [Machine.exec_bind_of_ok hx]
    exact (hf a).grows m' hu

theorem bind {x : Eval α} {f : α → Eval β} (h : Truncates n x) (hf : ∀ a, Truncates n (f a)) :
    Truncates n (x >>= f) := by
  constructor
  case grows =>
    intro m hu
    have hm := h.grows m hu
    exact hm.trans (grows_rest hf hm.unlimited)
  case cuts =>
    intro m hu hl
    have hm := h.grows m hu
    have hr := grows_rest hf hm.unlimited
    have ht := h.cuts m hu hl
    -- If the limit cuts off the first computation, then all that the rest writes without a limit
    -- comes after the cut. Otherwise the rest starts from machines that differ by the limit again.
    generalize hp : (m.limit n).exec x = p at ht
    generalize ho : m.exec x = o at hm hr ht
    cases ht
    case full hl' hw =>
      rw [Machine.exec_bind_of_error hp]
      exact .later hl' hw hr
    case fits r m' hl' =>
      cases r
      case error e =>
        rw [Machine.exec_bind_of_error ho, Machine.exec_bind_of_error hp]
        exact .fits hl'
      case ok a =>
        rw [Machine.exec_bind_of_ok ho, Machine.exec_bind_of_ok hp]
        exact (hf a).cuts m' hm.unlimited hl'

theorem write (text : String) : Truncates n (Eval.write text) := by
  constructor
  case grows =>
    intro m hu
    simp only [Machine.exec, Eval.write, Sink.write, hu]
    exact ⟨rfl, List.prefix_append ..⟩
  case cuts =>
    intro m hu hl
    let bytes := Text.Utf8.encode text
    let room := n - m.output.written.length
    have ho : m.exec (Eval.write text) =
        (.ok (), { m with output := ⟨m.output.written ++ bytes, none⟩ }) := by
      simp only [Machine.exec, Eval.write, Sink.write, hu]
      rfl
    by_cases hb : bytes.length ≤ room
    case pos =>
      have hp : (m.limit n).exec (Eval.write text) =
          (.ok (),
            { m with output := ⟨m.output.written ++ bytes, some (room - bytes.length)⟩ }) := by
        simp only [Machine.exec, Machine.limit, Eval.write, Sink.write]
        rw [if_pos hb]
      have hr : room - bytes.length = n - (m.output.written ++ bytes).length := by
        rw [List.length_append]
        omega
      rw [ho, hp, hr]
      exact .fits (by rw [List.length_append]; omega)
    case neg =>
      have hp : (m.limit n).exec (Eval.write text) =
          (.error Sink.fullError,
            { m with output := ⟨m.output.written ++ bytes.take room, some 0⟩ }) := by
        simp only [Machine.exec, Machine.limit, Eval.write, Sink.write]
        rw [if_neg hb]
      rw [ho, hp]
      refine .full ?_ ?_
      · simp only [List.length_append]
        omega
      · rw [List.take_append, List.take_of_length_le hl]

end Truncates

namespace Truncation

def law (n : Nat) : Law where
  Holds x _  := Truncates n x
  pure a     := .silent fun env input => ⟨.ok a, env, input, fun _ => rfl⟩
  bind       := .bind
  operand _  := .silent fun env input => ⟨_, env, input, fun _ => rfl⟩

variable {n : Nat}

theorem holds_throw {α : Type} (e : Error) : Truncates n (throw e : Eval α) :=
  .silent fun env input => ⟨.error e, env, input, fun _ => rfl⟩

theorem holds_readWord : Truncates n Eval.readWord :=
  .silent fun env input => ⟨input.readWord.1, env, input.readWord.2, fun _ => rfl⟩

theorem holds_lookup (name : String) : Truncates n (Eval.lookup name) := by
  refine .silent fun env input => ?_
  let r : Except Error Value := (env.get? name).elim (.error (.unassigned name)) .ok
  exact ⟨r, env, input, fun output => Machine.exec_lookup { env, input, output } name⟩

theorem respects : (a : Action) → (law n).Respects a
  | .lookup name => holds_lookup name
  | .assign name => fun v => .silent fun env input => ⟨.ok (), env.set name v, input, fun _ => rfl⟩
  | .print       => .write
  | .input       => Law.respects_input (L := law n) holds_readWord (holds_throw _)

theorem truncates_eval (n : Nat) (t : Tree) : Truncates n t.eval :=
  Law.holds_eval (L := law n) t (fun a _ => respects a) (fun _ _ e _ => holds_throw e)

end Truncation

-- Evaluation stops at the first text that does not fit.
theorem eval_truncated (t : Tree) (env : Env) (input : Source) (n : Nat) :
    let o := Machine.exec { env, input } t.eval
    let p := Machine.exec { env, input, output.room := some n } t.eval
    let written := o.2.output.written
    (written.length ≤ n → p = (o.1, { o.2 with output.room := some (n - written.length) })) ∧
    (n < written.length →
      p.1 = .error (.stream "sink is full") ∧ p.2.output.written = written.take n) := by
  intro o p written
  have ht : Truncated n o p :=
    (Truncation.truncates_eval n t).cuts { env, input } rfl (Nat.zero_le n)
  clear_value o p
  cases ht
  case fits hl    => exact ⟨fun _ => rfl, fun h => absurd hl (Nat.not_le.mpr h)⟩
  case full hl hw => exact ⟨fun h => absurd h (Nat.not_le.mpr hl), fun _ => ⟨rfl, hw⟩⟩

-- There is room for one and a half of the characters, or for all of them and nothing more.
theorem eval_truncated_in_character :
    let t : Tree := .apply .print [.const (.text "é"), .const (.text "é"), .const (.text "")]
    let o := Machine.exec { input := { bytes := [] } } t.eval
    let p (n : Nat) := Machine.exec { input := { bytes := [] }, output.room := some n } t.eval
    o.2.output.written = [0xc3, 0xa9, 0xc3, 0xa9] ∧
    (p 3).1 = .error (.stream "sink is full") ∧ (p 3).2.output.written = [0xc3, 0xa9, 0xc3] ∧
    p 4 = (o.1, { o.2 with output.room := some 0 }) := by
  intro t o p
  have ho : o.2.output.written = [0xc3, 0xa9, 0xc3, 0xa9] := by decide
  have h3 := eval_truncated t .empty { bytes := [] } 3 |>.right (by decide)
  have h4 := eval_truncated t .empty { bytes := [] } 4 |>.left (by decide)
  exact ⟨ho, h3.left, h3.right.trans (congrArg (List.take 3) ho), h4⟩

end Polish
