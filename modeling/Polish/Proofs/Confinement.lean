import Polish.Proofs.Consumption

namespace Polish

namespace Tree

-- An operator is applied somewhere in a tree.
def Applies (t : Tree) (op : Operator) : Prop :=
  op ∈ t.applications.map (·.1)

instance (t : Tree) (op : Operator) : Decidable (t.Applies op) :=
  inferInstanceAs (Decidable (_ ∈ _))

theorem applies_self (op : Operator) (ts : List Tree) : (apply op ts).Applies op := by
  simp [Applies, applications]

theorem applies_of_argument {op op' : Operator} {t : Tree} {ts : List Tree} (h : t ∈ ts)
    (ht : t.Applies op') : (apply op ts).Applies op' := by
  rw [Applies, applications, List.map_cons]
  exact .tail _ (List.map_subset _ (applications_subset_applicationsAll h) ht)

theorem exists_of_mem_actionsAll {a : Action} {ts : List Tree} (h : a ∈ actionsAll ts) :
    ∃ t ∈ ts, a ∈ t.actions := by
  induction ts
  case nil          => cases h
  case cons t ts hi =>
    rw [actionsAll] at h
    cases List.mem_append.mp h
    case inl h => exact ⟨t, .head _, h⟩
    case inr h =>
      obtain ⟨u, hu, ha⟩ := hi h
      exact ⟨u, .tail _ hu, ha⟩

end Tree

-- The operators that take an action. An input writes its prompt, just as a print does.
inductive Action.Owner : Action → Operator → Prop
  | assign {name} : Owner (.assign name) .assign
  | print         : Owner .print .print
  | prompt        : Owner .print .input
  | input         : Owner .input .input

theorem Operator.owner_of_mem_actions {op : Operator} {a : Action} (h : a ∈ op.actions) :
    a.Owner op := by
  cases op
  case print =>
    cases List.mem_singleton.mp h
    exact .print
  case input =>
    simp only [actions, List.mem_cons, List.not_mem_nil, or_false] at h
    cases h
    case inl h => exact h ▸ .prompt
    case inr h => exact h ▸ .input
  all_goals cases h

namespace Tree

theorem owned_of_mem_actionsAll {op : Operator} {ts us : List Tree} {a : Action} (hs : us ⊆ ts)
    (hi : ∀ t ∈ ts, a ∈ t.actions → ∃ op, a.Owner op ∧ t.Applies op) (h : a ∈ actionsAll us) :
    ∃ op', a.Owner op' ∧ (apply op ts).Applies op' := by
  have ⟨t, ht, ha⟩ := exists_of_mem_actionsAll h
  have ⟨op', ho, hp⟩ := hi t (hs ht) ha
  exact ⟨op', ho, applies_of_argument (hs ht) hp⟩

-- Looking up a name needs no operator. Every other action of a tree is taken by an operator in it.
theorem owned_of_mem_actions {t : Tree} {a : Action} (hn : ∀ name, a ≠ .lookup name)
    (h : a ∈ t.actions) : ∃ op, a.Owner op ∧ t.Applies op := by
  induction t using Tree.induction
  case const          => cases h
  case ident name     => exact absurd (List.mem_singleton.mp h) (hn name)
  case apply op ts hi =>
    unfold actions at h
    split at h
    case h_1 | h_2 => contradiction
    case h_3 name us he =>
      cases he
      cases List.mem_cons.mp h
      case inl h => exact ⟨.assign, h ▸ .assign, applies_self ..⟩
      case inr h => exact owned_of_mem_actionsAll (List.subset_cons_self ..) hi h
    case h_4 he =>
      cases he
      cases List.mem_append.mp h
      case inl h => exact ⟨op, Operator.owner_of_mem_actions h, applies_self ..⟩
      case inr h => exact owned_of_mem_actionsAll (List.Subset.refl _) hi h

end Tree

-- However a computation ends, the machine that it leaves is related to the one that it began on.
def Eval.Moves {α : Type} (R : Machine → Machine → Prop) (x : Eval α) : Prop :=
  ∀ m : Machine, R m (m.exec x).2

-- The same of an action, whatever text or value it is taken with.
def Action.Moves (R : Machine → Machine → Prop) : Action → Prop
  | .lookup _    => True
  | .assign name => ∀ v, (Eval.assign name v).Moves R
  | .print       => ∀ text, (Eval.write text).Moves R
  | .input       => Eval.readWord.Moves R

section Moves

variable {R : Machine → Machine → Prop} (refl : ∀ m, R m m)
  (trans : ∀ {m₁ m₂ m₃ : Machine}, (R m₁ m₂) → (R m₂ m₃) → R m₁ m₃)

include refl in
theorem Eval.Moves.still {α : Type} {x : Eval α} (h : ∀ m : Machine, (m.exec x).2 = m) :
    x.Moves R :=
  fun m => (h m).symm ▸ refl m

include trans in
theorem Eval.Moves.bind {α β : Type} {x : Eval α} {f : α → Eval β} (h : x.Moves R)
    (hf : ∀ a, (f a).Moves R) : (x >>= f).Moves R := by
  intro m
  have hm := h m
  match hx : m.exec x with
  | (.error e, m') =>
    rw [hx] at hm
    rw [Machine.exec_bind_of_error hx]
    exact hm
  | (.ok a, m') =>
    rw [hx] at hm
    rw [Machine.exec_bind_of_ok hx]
    exact trans hm (hf a m')

def Confinement.law : Law where
  Holds x _ := x.Moves R
  pure _    := .still refl fun _ => rfl
  bind      := .bind (R := R) trans
  operand _ := .still refl fun _ => rfl

theorem Confinement.respects {a : Action} (h : a.Moves R) : (law refl trans).Respects a := by
  cases a
  case lookup name =>
    refine Eval.Moves.still refl fun m => ?_
    rw [Machine.exec_lookup]
  case assign => exact h
  case print  => exact h
  case input  => exact Law.respects_input (L := law refl trans) h (.still refl fun _ => rfl)

-- What each action of a tree keeps to, its evaluation keeps to.
include refl trans in
theorem Tree.moves_eval {t : Tree} (h : ∀ a ∈ t.actions, a.Moves R) : t.eval.Moves R :=
  Law.holds_eval (L := Confinement.law refl trans) t
    (fun a ha => Confinement.respects refl trans (h a ha))
    (fun _ _ _ _ => .still refl fun _ => rfl)

end Moves

-- A machine that a computation may lead to: nothing written is taken back, nothing read is put
-- back, and nothing bound is unbound.
structure Machine.Advances (m m' : Machine) : Prop where
  written : m.output.written <+: m'.output.written
  unread  : m'.input.bytes <:+ m.input.bytes
  broken  : m'.input.broken = m.input.broken
  bound   : ∀ name, m.env.contains name → m'.env.contains name

namespace Machine.Advances

theorem refl (m : Machine) : m.Advances m :=
  ⟨List.prefix_refl _, List.suffix_refl _, rfl, fun _ => id⟩

theorem trans {m₁ m₂ m₃ : Machine} (h : m₁.Advances m₂) (h' : m₂.Advances m₃) : m₁.Advances m₃ where
  written   := h.written.trans h'.written
  unread    := h'.unread.trans h.unread
  broken    := h'.broken.trans h.broken
  bound n b := h'.bound n (h.bound n b)

theorem of_action (a : Action) : a.Moves Advances := by
  cases a
  case lookup => trivial
  case assign name =>
    intro v m
    refine ⟨List.prefix_refl _, List.suffix_refl _, rfl, fun other h => ?_⟩
    exact Env.contains_set h name v
  case print =>
    intro text m
    exact ⟨m.output.written_write text, List.suffix_refl _, rfl, fun _ => id⟩
  case input =>
    intro m
    exact ⟨List.prefix_refl _, Source.Call.word.bytes_suffix m.input, Source.Call.word.read_broken,
      fun _ => id⟩

end Machine.Advances

namespace Tree

variable {t : Tree}

-- A part of a machine stays as it is if the actions that may change it belong to operators that
-- are not applied.
theorem keeps_eval {σ : Type} (part : Machine → σ)
    (h : ∀ a op, Action.Owner a op → t.Applies op → a.Moves fun m m' => part m' = part m)
    (m : Machine) : part (m.exec t.eval).2 = part m := by
  let R (m m' : Machine) := part m' = part m
  refine moves_eval (R := R) (fun _ => rfl) (fun h h' => h'.trans h) (fun a ha => ?_) m
  cases a
  case lookup => trivial
  all_goals
    have ⟨op, ho, hp⟩ := owned_of_mem_actions (by simp) ha
    exact h _ op ho hp

theorem output_eval (hp : ¬t.Applies .print) (hi : ¬t.Applies .input) (m : Machine) :
    (m.exec t.eval).2.output = m.output := by
  refine keeps_eval Machine.output (fun a op ho ha => ?_) m
  cases ho
  case assign => exact fun _ _ => rfl
  case print  => exact absurd ha hp
  case prompt => exact absurd ha hi
  case input  => exact absurd ha hi

theorem input_eval (hi : ¬t.Applies .input) (m : Machine) :
    (m.exec t.eval).2.input = m.input := by
  refine keeps_eval Machine.input (fun a op ho ha => ?_) m
  cases ho
  case assign => exact fun _ _ => rfl
  case print  => exact fun _ _ => rfl
  case prompt => exact absurd ha hi
  case input  => exact absurd ha hi

theorem env_eval (ha : ¬t.Applies .assign) (m : Machine) : (m.exec t.eval).2.env = m.env := by
  refine keeps_eval Machine.env (fun a op ho hp => ?_) m
  cases ho
  case assign => exact absurd hp ha
  case print  => exact fun _ _ => rfl
  case prompt => exact fun _ _ => rfl
  case input  => exact fun _ => rfl

end Tree

theorem exec_eval_confined (t : Tree) (m : Machine) :
    let m' := (m.exec t.eval).2
    m.output.written <+: m'.output.written ∧
    (m'.input.bytes <:+ m.input.bytes ∧ m'.input.broken = m.input.broken) ∧
    (∀ name, m.env.contains name → m'.env.contains name) ∧
    (¬t.Applies .print → ¬t.Applies .input → m'.output = m.output) ∧
    (¬t.Applies .input → m'.input = m.input) ∧
    (¬t.Applies .assign → m'.env = m.env) := by
  intro m'
  have h : m.Advances m' :=
    Tree.moves_eval Machine.Advances.refl Machine.Advances.trans
      (fun a _ => Machine.Advances.of_action a) m
  refine ⟨h.written, ⟨h.unread, h.broken⟩, h.bound, ?_, ?_, ?_⟩
  · exact fun hp hi => Tree.output_eval hp hi m
  · exact fun hi => Tree.input_eval hi m
  · exact fun ha => Tree.env_eval ha m

-- Both trees fail at their last name. By then one has bound a name, and the other has written a
-- prompt and read a word.
theorem exec_eval_confined_failing :
    let t : Tree := .apply .program [.apply .assign [.ident "x", .const .none], .ident "y"]
    let u : Tree := .apply .program [.apply .input [.const (.text "?")], .ident "y"]
    let m : Machine := { input := { bytes := [0x61, 0x20, 0x62] } }
    let m' := (m.exec t.eval).2
    (m.exec t.eval).1 = .error (.unassigned "y") ∧ m'.env.contains "x" ∧
    m'.output = m.output ∧ m'.input = m.input ∧
    (m'.exec u.eval).1 = .error (.unassigned "y") ∧ (m'.exec u.eval).2.output.written = [0x3f] ∧
    (m'.exec u.eval).2.input.bytes = [0x20, 0x62] ∧ (m'.exec u.eval).2.env = m'.env := by
  intro t u m m'
  have ⟨_, _, _, ho, hi, _⟩ := exec_eval_confined t m
  have ⟨_, _, _, _, _, he⟩ := exec_eval_confined u m'
  exact ⟨rfl, rfl, ho (by decide) (by decide), hi (by decide), rfl, rfl, rfl, he (by decide)⟩

end Polish
