import Polish.Env
import Polish.Stream.Sink
import Polish.Stream.Source

namespace Polish

-- What evaluation works on.
structure Machine where
  env    : Env  := .empty
  input  : Source
  output : Sink := {}

-- A computation on a machine. What it did before failing stays done.
abbrev Eval := ExceptT Error (StateM Machine)

namespace Machine

variable {α β : Type}

def arrive (more : List UInt8) (m : Machine) : Machine :=
  { m with input := m.input.arrive more }

def exec (m : Machine) (x : Eval α) : Except Error α × Machine :=
  x m

@[simp]
theorem exec_pure (m : Machine) (a : α) : m.exec (pure a) = (.ok a, m) :=
  rfl

@[simp]
theorem exec_throw (m : Machine) (e : Error) : m.exec (throw e : Eval α) = (.error e, m) :=
  rfl

theorem exec_bind (m : Machine) (x : Eval α) (f : α → Eval β) :
    m.exec (x >>= f) =
      match m.exec x with
      | (.ok a, m')    => m'.exec (f a)
      | (.error e, m') => (.error e, m') := by
  simp only [exec, bind, ExceptT.bind, ExceptT.mk, StateT.bind]
  match x m with
  | (.ok _, _)    => rfl
  | (.error _, _) => rfl

theorem exec_bind_of_ok {m m' : Machine} {x : Eval α} {a : α} (h : m.exec x = (.ok a, m'))
    (f : α → Eval β) : m.exec (x >>= f) = m'.exec (f a) := by
  rw [exec_bind, h]

theorem exec_bind_of_error {m m' : Machine} {x : Eval α} {e : Error} (h : m.exec x = (.error e, m'))
    (f : α → Eval β) : m.exec (x >>= f) = (.error e, m') := by
  rw [exec_bind, h]

-- What is done with a value only matters on the machine that the value was come to on.
theorem exec_bind_congr {m : Machine} {x : Eval α} {f g : α → Eval β}
    (h : ∀ a m', m.exec x = (.ok a, m') → m'.exec (f a) = m'.exec (g a)) :
    m.exec (x >>= f) = m.exec (x >>= g) := by
  rw [exec_bind, exec_bind]
  match hx : m.exec x with
  | (.ok a, m')   => exact h a m' hx
  | (.error _, _) => rfl

theorem exists_exec_of_bind {m m' : Machine} {x : Eval α} {f : α → Eval β} {b : β}
    (h : m.exec (x >>= f) = (.ok b, m')) :
    ∃ a m₁, m.exec x = (.ok a, m₁) ∧ m₁.exec (f a) = (.ok b, m') := by
  match hx : m.exec x with
  | (.ok a, m₁) =>
    rw [exec_bind_of_ok hx] at h
    exact ⟨a, m₁, rfl, h⟩
  | (.error _, _) =>
    rw [exec_bind_of_error hx] at h
    cases h

end Machine

namespace Eval

def ofExcept {α : Type} (e : Except Error α) : Eval α := fun m =>
  (e, m)

def lookup (name : String) : Eval Value := fun m =>
  match m.env.get? name with
  | some v => (.ok v, m)
  | none   => (.error (.unassigned name), m)

def assign (name : String) (value : Value) : Eval Unit := fun m =>
  (.ok (), { m with env := m.env.set name value })

def write (text : String) : Eval Unit := fun m =>
  ((m.output.write text).1, { m with output := (m.output.write text).2 })

def readWord : Eval (Option String) := fun m =>
  (m.input.readWord.1, { m with input := m.input.readWord.2 })

-- Forgets all variables.
def clear : Eval Unit := fun m =>
  (.ok (), { m with env := m.env.clear })

end Eval

theorem Machine.exec_lookup (m : Machine) (name : String) :
    m.exec (Eval.lookup name) = ((m.env.get? name).elim (.error (.unassigned name)) .ok, m) := by
  rw [exec, Eval.lookup]
  split
  case h_1 h => rw [h]; rfl
  case h_2 h => rw [h]; rfl

end Polish
