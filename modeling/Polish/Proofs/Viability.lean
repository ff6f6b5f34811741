import Polish.Proofs.Parsing

namespace Polish

def Viable (ts : List Token) : Prop :=
  ∃ rest t, parse (ts ++ rest) = .ok t

-- The errors that may be reported at a token. All but one show its text.
inductive Error.Blames : Error → Token → Prop
  | tooDeep    {a}        : (a.kind = .leftParen) → Blames (.nestingTooDeep 256) a
  | unexpected {a}        : Blames (.unexpectedToken a.text) a
  | expected   {a wanted} : Blames (.expected wanted a.text) a
  | trailing   {a}        : Blames (.trailingToken a.text) a
  | numeral    {a}        : Blames (.invalidNumeral a.text) a

-- The first token of a list with which, and after which, nothing can be accepted any more.
structure Culprit (ts : List Token) (k : Nat) (a : Token) : Prop where
  get      : ts[k]? = some a
  excludes : ¬Viable (ts.take (k + 1))
  first    : ∀ j < k, Viable (ts.take (j + 1))

namespace Parser

-- Closes every application of a stack.
def closers (s : List Frame) : List Token :=
  List.replicate s.length ⟨.rightParen, ")"⟩

-- Tokens that take a parser to the end.
def completion : Parser → List Token
  | .reading []       => [⟨.null, "null"⟩]
  | .reading (f :: s) => closers (f :: s)
  | .opened s         => ⟨.null, "null"⟩ :: ⟨.rightParen, ")"⟩ :: closers s
  | .closing s _      => ⟨.rightParen, ")"⟩ :: closers s
  | .done _           => []

theorem run_closers (s : List Frame) (t : Tree) :
    ∃ u, (supply s t).run (closers s) = .ok (.done u) := by
  induction s generalizing t
  case nil         => exact ⟨t, rfl⟩
  case cons f s hi =>
    have ⟨u, hu⟩ := hi (.apply f.op (t :: f.args).reverse)
    exact ⟨u, Takes.right.run_cons _ ▸ hu⟩

theorem run_completion : (p : Parser) → ∃ t, p.run p.completion = .ok (.done t)
  | .reading []       => ⟨_, (Takes.atom .null).run_single⟩
  | .reading (f :: s) => by
    have ⟨u, hu⟩ := run_closers s (.apply f.op f.args.reverse)
    exact ⟨u, Takes.right.run_cons _ ▸ hu⟩
  | .opened s => by
    have ⟨u, hu⟩ := run_closers s (.const .none)
    refine ⟨u, ?_⟩
    rw [completion, (Takes.wrapped .null).run_cons, (Takes.unwrap rfl).run_cons, hu]
  | .closing s t => by
    have ⟨u, hu⟩ := run_closers s t
    refine ⟨u, ?_⟩
    rw [completion, (Takes.unwrap rfl).run_cons, hu]
  | .done t => ⟨t, rfl⟩

end Parser

-- The parser refuses no list that can be continued.
theorem viable_iff_run {ts : List Token} : Viable ts ↔ ∃ p, Parser.start.run ts = .ok p := by
  constructor
  case mp =>
    intro ⟨rest, t, h⟩
    rw [parse_eq_ok_iff_run] at h
    obtain ⟨p, hp, _⟩ := Parser.run_append_iff.mp h
    exact ⟨p, hp⟩
  case mpr =>
    intro ⟨p, h⟩
    have ⟨t, ht⟩ := p.run_completion
    refine ⟨p.completion, t, ?_⟩
    rw [parse_eq_ok_iff_run, Parser.run_append_of_eq h, ht]

theorem Viable.of_append {ts us : List Token} : (Viable (ts ++ us)) → Viable ts
  | ⟨rest, t, h⟩ => ⟨us ++ rest, t, List.append_assoc .. ▸ h⟩

namespace Parser

theorem blames_of_step {p : Parser} {a : Token} {e : Error} (h : p.step a = .error e) :
    e.Blames a := by
  cases p <;> simp only [step] at h
  case reading s =>
    split at h
    case h_1 r ha =>
      cases r <;> simp only [Except.map] at h <;> cases h
      exact atom?_eq_error ha ▸ .numeral
    case h_2 =>
      split at h
      case h_1 hk => split at h <;> cases h; exact .tooDeep hk
      case h_2    => split at h <;> cases h; exact .expected
      case h_3    => cases h; exact .unexpected
  case opened s =>
    split at h
    case h_1 r ha =>
      cases r <;> simp only [Except.map] at h <;> cases h
      exact atom?_eq_error ha ▸ .numeral
    case h_2 => split at h <;> cases h; exact .expected
  case closing s t => split at h <;> cases h; exact .expected
  case done t      => cases h; exact .trailing

theorem end_of_finish {p : Parser} {e : Error} (h : p.finish = .error e) :
    ∃ wanted, e = .unexpectedEnd wanted := by
  cases p
  case reading s => cases s <;> cases h <;> exact ⟨_, rfl⟩
  case done t    => cases h
  all_goals cases h; exact ⟨_, rfl⟩

-- A run that fails does so at one token, and goes well on the tokens before it.
theorem exists_step_of_run {p : Parser} {ts : List Token} {e : Error} (h : p.run ts = .error e) :
    ∃ us a vs q, ts = us ++ a :: vs ∧ p.run us = .ok q ∧ q.step a = .error e := by
  induction ts generalizing p
  case nil => cases h
  case cons a ts hi =>
    rw [run_cons] at h
    cases hs : p.step a <;> rw [hs] at h
    case error =>
      cases h
      exact ⟨[], a, ts, p, rfl, rfl, hs⟩
    case ok p' =>
      have ⟨us, b, vs, q, ht, hr, hb⟩ := hi h
      refine ⟨a :: us, b, vs, q, by rw [ht]; rfl, ?_, hb⟩
      rw [run_cons, hs]
      exact hr

theorem culprit_of_run {ts : List Token} {e : Error} (h : start.run ts = .error e) :
    ∃ k a, Culprit ts k a ∧ e.Blames a := by
  have ⟨us, a, vs, q, ht, hr, hs⟩ := exists_step_of_run h
  subst ht
  refine ⟨us.length, a, ?_, blames_of_step hs⟩
  constructor
  case get => simp
  case excludes =>
    intro hv
    have ⟨p, hp⟩ := viable_iff_run.mp hv
    rw [List.take_length_add_append, run_append_of_eq hr, List.take_one] at hp
    rw [List.head?_cons, Option.toList_some, run_cons, hs] at hp
    cases hp
  case first =>
    intro j hj
    rw [List.take_append_of_le_length (Nat.succ_le_of_lt hj)]
    have hv := viable_iff_run.mpr ⟨q, hr⟩
    rw [← List.take_append_drop (j + 1) us] at hv
    exact hv.of_append

end Parser

-- The parser goes on as long as what it has read can be continued to a list that is accepted.
theorem parse_blames_culprit {ts : List Token} {e : Error} (h : parse ts = .error e) :
    (Viable ts → ∃ wanted, e = .unexpectedEnd wanted) ∧
    (¬Viable ts → ∃ k a, Culprit ts k a ∧ e.Blames a) ∧
    (∀ message, e ≠ .lexer message) := by
  rw [parse_eq_run] at h
  cases hr : Parser.start.run ts <;> rw [hr] at h
  case error =>
    cases h
    have ⟨k, a, hc, hb⟩ := Parser.culprit_of_run hr
    refine ⟨fun hv => ?_, fun _ => ⟨k, a, hc, hb⟩, fun m he => ?_⟩
    · have ⟨p, hp⟩ := viable_iff_run.mp hv
      cases hp.symm.trans hr
    · cases he ▸ hb
  case ok p =>
    have ⟨w, hw⟩ := Parser.end_of_finish h
    refine ⟨fun _ => ⟨w, hw⟩, fun hv => ?_, fun m he => ?_⟩
    · exact absurd (viable_iff_run.mpr ⟨p, hr⟩) hv
    · cases he ▸ hw

theorem parse_blames_second_atom :
    parse [⟨.leftParen, "("⟩, ⟨.identifier, "x"⟩, ⟨.identifier, "y"⟩] =
      .error (.expected "right parenthesis" "y") ∧
    ∃ k a, Culprit [⟨.leftParen, "("⟩, ⟨.identifier, "x"⟩, ⟨.identifier, "y"⟩] k a ∧
      (Error.expected "right parenthesis" "y").Blames a := by
  have hv : ¬Viable [⟨.leftParen, "("⟩, ⟨.identifier, "x"⟩, ⟨.identifier, "y"⟩] := by
    intro hv
    have ⟨_, hr⟩ := viable_iff_run.mp hv
    cases hr
  exact ⟨rfl, parse_blames_culprit rfl |>.right.left hv⟩

end Polish
