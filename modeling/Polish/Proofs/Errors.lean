import Polish.Proofs.Law

namespace Polish

-- The errors that evaluation may meet in any tree.
inductive Error.Arises : Error → Prop
  | operand    {e}       : (e.Operand) → Arises e
  | unassigned {name}    : Arises (.unassigned name)
  | stream     {message} : Arises (.stream message)

-- The errors that evaluating a tree may end in.
def Tree.Raises (t : Tree) (e : Error) : Prop :=
  e.Arises ∨ ∃ p ∈ t.applications, p.1.Refuses p.2 e

-- A computation that fails with errors of some kind only.
def Eval.FailsWith {α : Type} (P : Error → Prop) (x : Eval α) : Prop :=
  ∀ (m m' : Machine) (e : Error), m.exec x = (.error e, m') → P e

namespace Eval.FailsWith

variable {α β : Type} {P : Error → Prop}

theorem succeeds {x : Eval α} (h : ∀ m : Machine, ∃ a m', m.exec x = (.ok a, m')) :
    FailsWith P x := by
  intro m _ _ hm
  have ⟨_, _, ha⟩ := h m
  cases ha.symm.trans hm

theorem fails {e : Error} (h : P e) : FailsWith P (throw e : Eval α) := by
  intro _ _ _ hm
  cases hm
  exact h

theorem bind {x : Eval α} {f : α → Eval β} (h : FailsWith P x) (hf : ∀ a, FailsWith P (f a)) :
    FailsWith P (x >>= f) := by
  intro m m' e hm
  match hx : m.exec x with
  | (.ok a, m₁) =>
    rw [Machine.exec_bind_of_ok hx] at hm
    exact hf a m₁ m' e hm
  | (.error e₁, m₁) =>
    rw [Machine.exec_bind_of_error hx] at hm
    cases hm
    exact h m m' e hx

end Eval.FailsWith

namespace Errors

open Eval

variable {P : Error → Prop} (h : ∀ e : Error, e.Arises → P e)

def law : Law where
  Holds x _  := FailsWith P x
  pure a     := .succeeds fun m => ⟨a, m, rfl⟩
  bind       := .bind
  operand ho := .fails (h _ (.operand ho))

include h

theorem holds_lookup (name : String) : FailsWith P (lookup name) := by
  intro m m' e hm
  rw [Machine.exec_lookup] at hm
  cases hv : m.env.get? name <;> rw [hv] at hm <;> cases hm
  exact h _ .unassigned

theorem holds_write (text : String) : FailsWith P (write text) := by
  intro m m' e hm
  have hr : (m.output.write text).1 = .error e := congrArg Prod.fst hm
  cases m.output.write_result text
  case inl hw => cases hw.symm.trans hr
  case inr hw =>
    cases hw.symm.trans hr
    exact h _ .stream

theorem holds_readWord : FailsWith P readWord := by
  intro m m' e hm
  have hr : m.input.readWord.1 = .error e := congrArg Prod.fst hm
  cases m.input.readWord_result
  case inl hw =>
    have ⟨_, hw⟩ := hw
    cases hw.symm.trans hr
  case inr hw =>
    cases hw.symm.trans hr
    exact h _ .stream

theorem respects : (a : Action) → (law h).Respects a
  | .lookup name => holds_lookup h name
  | .assign name => fun v => .succeeds fun m => ⟨(), { m with env := m.env.set name v }, rfl⟩
  | .print       => holds_write h
  | .input       => Law.respects_input (L := law h) (holds_readWord h) (.fails (h _ .stream))

end Errors

theorem Tree.failsWith_eval (t : Tree) : t.eval.FailsWith t.Raises :=
  let h : ∀ e : Error, e.Arises → t.Raises e := fun _ => .inl
  Law.holds_eval (L := Errors.law h) t (fun a _ => Errors.respects h a)
    fun p hp _ he => .fails (.inr ⟨p, hp, he⟩)

end Polish
