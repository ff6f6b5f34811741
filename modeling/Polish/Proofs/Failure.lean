import Polish.Proofs.Batch
import Polish.Proofs.Errors
import Polish.Proofs.Stability
import Polish.Proofs.Viability

namespace Polish

open Grammar Munch

-- Tokens of operators are spelled like operators.
def Grammar.Spelled (ts : List Token) : Prop :=
  ∀ a ∈ ts, a.kind = .operator → operator a ≠ .unknown

theorem operator_of_wordKind {a : Token} (h : wordKind a.text = .operator) :
    operator a ≠ .unknown := by
  rw [wordKind] at h
  split at h
  case isTrue ht =>
    obtain ⟨op, hm, ho⟩ := List.mem_map.mp ht
    have hu := Operator.mem_all.mp hm
    rw [operator, ← ho, Operator.ofSpelling?_spelling hu]
    exact hu
  case isFalse => split at h <;> cases h

theorem spelled_tokenize (source : String) : Spelled (tokenize source) := by
  intro a ha hk
  cases cut_of_mem_lexemes (mem_lexemes_of_mem_tokenize ha)
  case word hw => exact operator_of_wordKind (hw.symm.trans hk)
  all_goals cases hk

mutual

theorem Grammar.Expression.known {ts : List Token} {t : Tree} :
    (Expression ts t) → (Spelled ts) → ∀ p ∈ t.applications, p.1 ≠ .unknown
  | .atom a, _ | .wrapped _ a _, _ => by cases a <;> nofun
  | .apply hl ho es, h => by
    have hes := es.known fun a ha => h a (by simp [ha])
    rw [Tree.applications]
    exact List.forall_mem_cons.mpr ⟨h _ (by simp) ho, hes⟩

theorem Grammar.Expressions.known {ts : List Token} {us : List Tree} :
    (Expressions ts us) → (Spelled ts) → ∀ p ∈ Tree.applicationsAll us, p.1 ≠ .unknown
  | .nil, _ => nofun
  | .cons e es, h => by
    have he := e.known fun a ha => h a (List.mem_append_left _ ha)
    have hes := es.known fun a ha => h a (List.mem_append_right _ ha)
    rw [Tree.applicationsAll]
    exact List.forall_mem_append.mpr ⟨he, hes⟩

end

theorem stage_of_parse {ts : List Token} {e : Error} (h : parse ts = .error e) :
    e.stage = .parser := by
  rw [parse_eq_run] at h
  cases hr : Parser.start.run ts <;> rw [hr] at h
  case error =>
    cases h
    have ⟨_, _, _, _, _, _, hs⟩ := Parser.exists_step_of_run hr
    cases Parser.blames_of_step hs <;> rfl
  case ok =>
    have ⟨_, hw⟩ := Parser.end_of_finish h
    rw [hw]
    rfl

-- The errors of a source are those of its parsing and its evaluation.
theorem Tree.Raises.stage {t : Tree} {e : Error} (ht : ∀ p ∈ t.applications, p.1 ≠ .unknown) :
    (t.Raises e) → e.stage = .runtime ∧ e ≠ .unknownOperator
  | .inl (.operand h)      => by cases h <;> exact ⟨rfl, nofun⟩
  | .inl .unassigned       => ⟨rfl, nofun⟩
  | .inl .stream           => ⟨rfl, nofun⟩
  | .inr ⟨(op, _), hp, h⟩ => by
    cases h
    case unknown => exact absurd rfl (ht _ hp)
    all_goals exact ⟨rfl, nofun⟩

namespace Session

-- The ways in which running a source may go.
inductive Runs (m : Machine) (source : String) : Except Error (Option Value) × Machine → Prop
  | blank :
    (tokenize source = []) → Runs m source (.ok none, m)
  | refused {e} :
    (parse (tokenize source) = .error e) → Runs m source (.error e, { m with env := .empty })
  | fails {t e m'} :
    (parse (tokenize source) = .ok t) → (m.exec t.eval = (.error e, m')) →
    Runs m source (.error e, { m' with env := .empty })
  | succeeds {t v m'} :
    (parse (tokenize source) = .ok t) → (m.exec t.eval = (.ok v, m')) →
    Runs m source (.ok (some v), m')

theorem exec_run_of_blank {source : String} (h : tokenize source = []) (m : Machine) :
    m.exec (run source) = (.ok none, m) := by
  rw [run, Machine.exec_tryCatch, cycle, h]
  rfl

theorem exec_run_of_error {source : String} {e : Error} (h : parse (tokenize source) = .error e)
    (hn : tokenize source ≠ []) (m : Machine) :
    m.exec (run source) = (.error e, { m with env := .empty }) := by
  have hc : m.exec (cycle source) = (.error e, m) := by
    rw [cycle]
    split
    case h_1 ht => contradiction
    case h_2    => rw [h]; rfl
  rw [run, Machine.exec_tryCatch, hc]
  rfl

theorem runs (m : Machine) (source : String) : Runs m source (m.exec (run source)) := by
  by_cases ht : tokenize source = []
  case pos => exact exec_run_of_blank ht m ▸ .blank ht
  case neg =>
    cases hp : parse (tokenize source)
    case error => exact exec_run_of_error hp ht m ▸ .refused hp
    case ok t  =>
      rw [exec_run_of_parse hp]
      match he : m.exec t.eval with
      | (.ok _, _)    => exact .succeeds hp he
      | (.error _, _) => exact .fails hp he

namespace Runs

variable {m m' : Machine} {source : String} {e : Error}

theorem env_eq (h : Runs m source (.error e, m')) : m'.env = .empty := by
  cases h <;> rfl

-- A source is refused before anything is done, or fails at what its operators, names and streams
-- come to.
theorem blame (h : Runs m source (.error e, m')) :
    (e.stage = .parser ∧ m'.output = m.output ∧ m'.input = m.input) ∨
    (e.stage = .runtime ∧ e ≠ .unknownOperator) := by
  cases h
  case refused hp    => exact .inl ⟨stage_of_parse hp, rfl, rfl⟩
  case fails t m' hp he =>
    have hk := (sentence_of_parse hp).expression.known (spelled_tokenize source)
    exact .inr ((t.failsWith_eval m m' e he).stage hk)

theorem not_lexer (h : Runs m source (.error e, m')) (message : String) : e ≠ .lexer message := by
  rintro rfl
  cases h.blame
  case inl hs => cases hs.left
  case inr hs => cases hs.left

theorem not_unknownOperator (h : Runs m source (.error e, m')) : e ≠ .unknownOperator := by
  rintro rfl
  cases h.blame
  case inl hs => cases hs.left
  case inr hs => exact hs.right rfl

theorem streams_eq (h : Runs m source (.error e, m')) (hp : e.stage = .parser) :
    m'.output = m.output ∧ m'.input = m.input := by
  cases h.blame
  case inl hs => exact hs.right
  case inr hs => cases hs.left.symm.trans hp

end Runs

-- What a session may be asked to do.
inductive Call
  | run  (source : String)
  | line (text : String)

def Call.answer : Call → Eval Outcome
  | .run source => return .value (← Session.run source)
  | .line text  => Session.line text

-- The answers to some calls, each with the machine that it leaves. A call that fails is followed by
-- the next one all the same.
def answers (m : Machine) : List Call → List (Except Error Outcome × Machine)
  | []            => []
  | call :: calls => m.exec call.answer :: answers (m.exec call.answer).2 calls

-- A session that failed goes on as a new one would with the same streams.
theorem exec_run_contract (m : Machine) (source : String) :
    (∀ e m', m.exec (run source) = (.error e, m') →
      m'.env = .empty ∧
      (∀ calls, answers m' calls = answers { input := m'.input, output := m'.output } calls) ∧
      (∀ message, e ≠ .lexer message) ∧ e ≠ .unknownOperator ∧
      (e.stage = .parser → m'.output = m.output ∧ m'.input = m.input)) ∧
    (∀ m', m.exec (run source) = (.ok none, m') → m' = m) := by
  have hr := runs m source
  constructor
  case left =>
    intro e m' hm
    rw [hm] at hr
    have hn : m' = { input := m'.input, output := m'.output } := hr.env_eq ▸ rfl
    exact ⟨hr.env_eq, fun _ => hn ▸ rfl, hr.not_lexer, hr.not_unknownOperator, hr.streams_eq⟩
  case right =>
    intro m' hm
    rw [hm] at hr
    cases hr
    rfl

-- A source that is not closed prints nothing but loses the variables; a comment leaves all as it is.
theorem exec_run_contract_unclosed :
    let m : Machine := { env := Env.empty.set "x" (.text "a"), input := { bytes := [0x62] } }
    let o := m.exec (run "(print x")
    let p := m.exec (run "# x")
    o.1 = .error (.unexpectedEnd ")") ∧ o.2.env = .empty ∧ o.2.output = m.output ∧
    o.2.input = m.input ∧ p.1 = .ok none ∧ p.2 = m := by
  intro m o p
  have ht : tokenize "(print x" =
    [⟨.leftParen, "("⟩, ⟨.operator, "print"⟩, ⟨.identifier, "x"⟩] := by decide
  have he : parse (tokenize "(print x") = .error (.unexpectedEnd ")") := ht ▸ rfl
  have hb : tokenize "# x" = [] := by decide
  have ho : o.1 = .error (.unexpectedEnd ")") :=
    congrArg Prod.fst (exec_run_of_error he (ht ▸ by decide) m)
  have hp : p.1 = .ok none := congrArg Prod.fst (exec_run_of_blank hb m)
  have ⟨he, _, _, _, hs⟩ := exec_run_contract m "(print x" |>.left _ _ (Prod.ext ho rfl)
  have hm := exec_run_contract m "# x" |>.right _ (Prod.ext hp rfl)
  exact ⟨ho, he, (hs rfl).left, (hs rfl).right, hp, hm⟩

end Session
end Polish
