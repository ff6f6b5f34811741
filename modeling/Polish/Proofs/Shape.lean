import Polish.Proofs.Errors

namespace Polish

-- Whether an operator can be applied to some arguments, by their number and, in an assignment, by
-- what they look like.
def Operator.fits : Operator → List Tree → Bool
  | .unknown,   _                  => false
  | .assign,    [.ident _, source] => !source.isIdent
  | .assign,    _                  => false
  | .toNumeric, ts                 => ts.length == 1
  | .toText,    ts                 => ts.length == 1
  | .unary _,   ts                 => ts.length == 1
  | _,          ts                 => !ts.isEmpty

-- Whether every application in a tree is of an operator to arguments that fit it.
def Tree.wellShaped (t : Tree) : Bool :=
  t.applications.all fun p => p.1.fits p.2

-- The errors by which an application is refused for its shape.
def Error.isMalformed : Error → Bool
  | .noArguments _ | .invalidArguments _ _ | .unknownOperator => true
  | _                                                         => false

namespace Operator

variable {op : Operator} {ts : List Tree} {e : Error}

theorem fits_converts {f : Value → Except Error Value} (h : op.Converts f) (ts : List Tree) :
    op.fits ts = (ts.length == 1) := by
  cases h <;> rfl

theorem fits_nil (op : Operator) : op.fits [] = false := by
  cases op <;> rfl

theorem Refuses.not_fits (h : op.Refuses ts e) : op.fits ts = false := by
  cases h
  case empty          => exact fits_nil op
  case notOne hf _ hl => simpa [fits_converts hf] using hl
  case onlyName hs    => simp [fits, hs]
  case unknown        => rfl
  case notTwo _ hl    =>
    match ts, hl with
    | [], _               => rfl
    | [_], _              => simp [fits]
    | _ :: _ :: _ :: _, _ => simp [fits]
  case notName target source ht =>
    cases target
    case ident => cases ht
    all_goals rfl

theorem exists_refuses_assign (hn : ts ≠ []) (h : assign.fits ts = false) :
    ∃ e, assign.Refuses ts e := by
  match ts, hn with
  | [_], _                 => exact ⟨_, .notTwo (by simp) (by simp)⟩
  | _ :: _ :: _ :: _, _    => exact ⟨_, .notTwo (by simp) (by simp)⟩
  | [.const _, _], _       => exact ⟨_, .notName rfl⟩
  | [.apply _ _, _], _     => exact ⟨_, .notName rfl⟩
  | [.ident _, source], _  => exact ⟨_, .onlyName (by simpa [fits] using h)⟩

-- Arguments that do not fit are refused.
theorem exists_refuses (h : op.fits ts = false) : ∃ e, op.Refuses ts e := by
  by_cases hn : ts = []
  case pos =>
    subst hn
    exact ⟨_, .empty⟩
  case neg =>
    have hc {f} (hf : op.Converts f) : ∃ e, op.Refuses ts e := by
      rw [fits_converts hf] at h
      exact ⟨_, .notOne hf hn (by simpa using h)⟩
    cases op
    case assign    => exact exists_refuses_assign hn h
    case toNumeric => exact hc .toNumeric
    case toText    => exact hc .toText
    case unary     => exact hc .unary
    case unknown   => exact ⟨_, .unknown hn⟩
    -- All others take any number of arguments but none.
    all_goals exact absurd (by simpa [fits] using h) hn

end Operator

theorem Error.Arises.not_isMalformed {e : Error} (h : e.Arises) : ¬e.isMalformed := by
  cases h
  case operand h => cases h <;> nofun
  all_goals nofun

namespace Tree

variable {op : Operator} {ts : List Tree}

theorem mem_applicationsAll {p : Operator × List Tree} :
    p ∈ applicationsAll ts ↔ ∃ t ∈ ts, p ∈ t.applications := by
  induction ts
  case nil          => simp [applicationsAll]
  case cons t ts hi => simp [applicationsAll, hi]

theorem wellShaped_apply :
    (apply op ts).wellShaped ↔ op.fits ts ∧ ∀ t ∈ ts, t.wellShaped := by
  simp only [wellShaped, applications, List.all_cons, Bool.and_eq_true, List.all_eq_true]
  refine and_congr_right fun _ => ?_
  constructor
  case mp  => exact fun h t ht p hp => h p (mem_applicationsAll.mpr ⟨t, ht, hp⟩)
  case mpr =>
    intro h p hp
    obtain ⟨t, ht, hp⟩ := mem_applicationsAll.mp hp
    exact h t ht p hp

-- Nothing in a tree that passes the check is refused.
theorem not_isMalformed_of_raises {t : Tree} {e : Error} (hs : t.wellShaped) (h : t.Raises e) :
    ¬e.isMalformed := by
  cases h
  case inl h => exact h.not_isMalformed
  case inr h =>
    have ⟨p, hp, hr⟩ := h
    have hf := List.all_eq_true.mp hs p hp
    rw [hr.not_fits] at hf
    cases hf

-- On some machine, evaluating the tree comes to a value.
def Succeeds (t : Tree) : Prop :=
  ∃ m v m', Machine.exec m t.eval = (.ok v, m')

theorem succeeds_of_evalFold {f : Value → Value → Eval Value} {acc v : Value} {m m' : Machine}
    (h : m.exec (evalFold f acc ts) = (.ok v, m')) : ∀ t ∈ ts, t.Succeeds := by
  induction ts generalizing acc m
  case nil          => nofun
  case cons t ts hi =>
    rw [evalFold] at h
    obtain ⟨v, m₁, ht, h⟩ := Machine.exists_exec_of_bind h
    obtain ⟨acc, m₂, _, h⟩ := Machine.exists_exec_of_bind h
    exact List.forall_mem_cons.mpr ⟨⟨m, v, m₁, ht⟩, hi h⟩

namespace Succeeds

theorem fits (h : (apply op ts).Succeeds) : op.fits ts := by
  cases hf : op.fits ts
  case true  => rfl
  case false =>
    have ⟨e, he⟩ := Operator.exists_refuses hf
    obtain ⟨m, v, m', h⟩ := h
    rw [eval_refused he] at h
    cases h

-- The only argument that is not evaluated is the name in an assignment.
theorem arguments (h : (apply op ts).Succeeds) : ∀ t ∈ ts, t.isIdent ∨ t.Succeeds := by
  obtain ⟨m, v, m', h⟩ := h
  have hx := form_apply op ts
  generalize (apply op ts).eval = x at hx h
  cases hx
  case fails  => cases h
  case folds  => exact fun t ht => .inr (succeeds_of_evalFold h t ht)
  case inputs =>
    obtain ⟨_, _, h, _⟩ := Machine.exists_exec_of_bind h
    exact fun t ht => .inr (succeeds_of_evalFold h t ht)
  case assigns name source _ ht _ =>
    obtain ⟨v, m₁, h, _⟩ := Machine.exists_exec_of_bind h
    subst ht
    simpa using ⟨Or.inl rfl, Or.inr ⟨m, v, m₁, h⟩⟩
  case converts t _ ht =>
    obtain ⟨v, m₁, h, _⟩ := Machine.exists_exec_of_bind h
    subst ht
    simpa using Or.inr ⟨m, v, m₁, h⟩

theorem wellShaped {t : Tree} (h : t.Succeeds) : t.wellShaped := by
  induction t using Tree.induction
  case const          => rfl
  case ident          => rfl
  case apply op ts hi =>
    refine wellShaped_apply.mpr ⟨h.fits, fun t ht => ?_⟩
    cases h.arguments t ht
    case inr hs => exact hi t ht hs
    case inl hn =>
      cases t
      case ident => rfl
      all_goals cases hn

end Succeeds
end Tree

-- Evaluation leaves no application out, so a tree with a value has passed every check.
theorem eval_shape_exact (t : Tree) (m : Machine) :
    (t.wellShaped → ∀ e, (m.exec t.eval).1 = .error e → ¬e.isMalformed) ∧
    (∀ v, (m.exec t.eval).1 = .ok v → t.wellShaped) := by
  constructor
  case left =>
    intro hs e he
    exact Tree.not_isMalformed_of_raises hs (t.failsWith_eval m _ e (Prod.ext he rfl))
  case right =>
    intro v hv
    exact Tree.Succeeds.wellShaped ⟨m, v, _, Prod.ext hv rfl⟩

-- One value of `y` shows the shape to be right, and so no other can be refused for it.
theorem eval_shape_exact_assign :
    let t : Tree := .apply .assign [.ident "x", .apply .toText [.ident "y"]]
    let m (v : Value) : Machine := { env := Env.empty.set "y" v, input := { bytes := [] } }
    ((m (.text "a")).exec t.eval).1 = .ok .none ∧ t.wellShaped ∧
    ((m .none).exec t.eval).1 = .error (.untypedOperand "to_string") ∧
    ¬(Error.untypedOperand "to_string").isMalformed := by
  intro t m
  have hv : ((m (.text "a")).exec t.eval).1 = .ok .none := rfl
  have he : ((m .none).exec t.eval).1 = .error (.untypedOperand "to_string") := rfl
  have hs := eval_shape_exact t (m (.text "a")) |>.right .none hv
  exact ⟨hv, hs, he, eval_shape_exact t (m .none) |>.left hs _ he⟩

end Polish
