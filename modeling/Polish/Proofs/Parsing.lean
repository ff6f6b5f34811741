import Polish.Proofs.Grammar
import Polish.Tree.Parser

namespace Polish

open Grammar

namespace Parser

theorem atom?_eq_ok_iff {a : Token} {t : Tree} : atom? a = some (.ok t) ↔ Atom a t := by
  constructor
  case mp =>
    obtain ⟨kind, text⟩ := a
    cases kind <;> simp only [atom?] <;> intro h
    case numeric =>
      split at h <;> cases h
      exact .numeral ‹_›
    all_goals cases h
    case identifier => exact .name
    case null       => exact .null
    case string     => exact .text
  case mpr =>
    intro h
    cases h
    case numeral h => simp [atom?, h]
    all_goals rfl

theorem atom?_eq_error {a : Token} {e : Error} (h : atom? a = some (.error e)) :
    e = .invalidNumeral a.text := by
  obtain ⟨kind, text⟩ := a
  cases kind <;> simp only [atom?] at h
  case numeric => split at h <;> cases h; rfl
  all_goals cases h

theorem atom?_eq_none_iff {a : Token} : atom? a = none ↔ a.kind.isAtom = false := by
  rw [← atom?_isSome, Option.isSome_eq_false_iff, Option.isNone_iff_eq_none]

-- The parser `q` that is left when the parser `p` takes a token.
inductive Takes : Parser → Token → Parser → Prop
  | atom {s a t} :
    (Atom a t) → Takes (.reading s) a (supply s t)
  | left {s a} :
    (a.kind = .leftParen) → (s.length < nestingLimit) → Takes (.reading s) a (.opened s)
  | right {f s} :
    Takes (.reading (f :: s)) ⟨.rightParen, ")"⟩ (supply s (.apply f.op f.args.reverse))
  | wrapped {s a t} :
    (Atom a t) → Takes (.opened s) a (.closing s t)
  | operator {s a} :
    (a.kind = .operator) → Takes (.opened s) a (.reading (⟨Grammar.operator a, []⟩ :: s))
  | unwrap {s t a} :
    (a.kind = .rightParen) → Takes (.closing s t) a (supply s t)

theorem Takes.step_eq {p q : Parser} {a : Token} (h : Takes p a q) : p.step a = .ok q := by
  cases h
  case atom h     => simp [step, atom?_eq_ok_iff.mpr h, Except.map]
  case right      => simp [step, atom?]
  case wrapped h  => simp [step, atom?_eq_ok_iff.mpr h, Except.map]
  case unwrap h   => simp [step, h]
  case left hs h  =>
    have ha : atom? a = none := atom?_eq_none_iff.mpr (by simp [h, Token.Kind.isAtom])
    simp [step, ha, h, Nat.not_le.mpr hs]
  case operator h =>
    have ha : atom? a = none := atom?_eq_none_iff.mpr (by simp [h, Token.Kind.isAtom])
    simp [step, ha, h, Grammar.operator]

theorem takes_of_step_reading {s : List Frame} {a : Token} {q : Parser}
    (h : (reading s).step a = .ok q) : Takes (.reading s) a q := by
  simp only [step] at h
  split at h
  case h_1 r ha =>
    cases r <;> simp only [Except.map] at h <;> cases h
    exact .atom (atom?_eq_ok_iff.mp ha)
  case h_2 =>
    split at h
    case h_1 hk =>
      split at h <;> cases h
      exact .left hk (Nat.lt_of_not_le ‹_›)
    case h_2 hk =>
      split at h <;> cases h
      obtain ⟨kind, text⟩ := a
      simp only at hk
      subst hk
      subst ‹text = _›
      exact .right
    case h_3 => cases h

theorem takes_of_step_opened {s : List Frame} {a : Token} {q : Parser}
    (h : (opened s).step a = .ok q) : Takes (.opened s) a q := by
  simp only [step] at h
  split at h
  case h_1 r ha =>
    cases r <;> simp only [Except.map] at h <;> cases h
    exact .wrapped (atom?_eq_ok_iff.mp ha)
  case h_2 =>
    split at h <;> cases h
    exact .operator ‹_›

-- Says once what a step can do. Everything below rests on `Takes`, and not on `step`.
theorem step_eq_ok_iff {p q : Parser} {a : Token} : p.step a = .ok q ↔ Takes p a q := by
  constructor
  case mpr => exact Takes.step_eq
  case mp =>
    intro h
    cases p
    case reading   => exact takes_of_step_reading h
    case opened    => exact takes_of_step_opened h
    case closing t =>
      simp only [step] at h
      split at h <;> cases h
      exact .unwrap ‹_›
    case done      => cases h

-- What is left of a parser after some tokens.
def run (p : Parser) (ts : List Token) : Except Error Parser :=
  ts.foldlM step p

@[simp]
theorem run_nil (p : Parser) : p.run [] = .ok p :=
  rfl

theorem run_cons (p : Parser) (a : Token) (ts : List Token) :
    p.run (a :: ts) = p.step a >>= fun q => q.run ts := by
  simp [run]

theorem run_append (p : Parser) (ts us : List Token) :
    p.run (ts ++ us) = p.run ts >>= fun q => q.run us := by
  simp [run]

theorem Takes.run_cons {p q : Parser} {a : Token} (h : Takes p a q) (ts : List Token) :
    p.run (a :: ts) = q.run ts := by
  rw [Parser.run_cons, h.step_eq]
  rfl

theorem Takes.run_single {p q : Parser} {a : Token} (h : Takes p a q) : p.run [a] = .ok q :=
  h.run_cons []

theorem run_append_of_eq {p q : Parser} {ts : List Token} (h : p.run ts = .ok q) (us : List Token) :
    p.run (ts ++ us) = q.run us := by
  rw [run_append, h]
  rfl

theorem run_append_iff {p q : Parser} {ts us : List Token} :
    p.run (ts ++ us) = .ok q ↔ ∃ p', p.run ts = .ok p' ∧ p'.run us = .ok q := by
  rw [run_append]
  cases p.run ts
  case error => exact ⟨nofun, nofun⟩
  case ok p' => exact ⟨fun h => ⟨p', rfl, h⟩, fun ⟨_, hp, h⟩ => by cases hp; exact h⟩

theorem run_cons_iff {p q : Parser} {a : Token} {us : List Token} :
    p.run (a :: us) = .ok q ↔ ∃ p', Takes p a p' ∧ p'.run us = .ok q := by
  rw [run_cons]
  cases hs : p.step a
  case error => exact ⟨nofun, fun ⟨_, ht, _⟩ => by cases hs.symm.trans ht.step_eq⟩
  case ok p' =>
    refine ⟨fun h => ⟨p', step_eq_ok_iff.mp hs, h⟩, fun ⟨_, ht, h⟩ => ?_⟩
    cases hs.symm.trans ht.step_eq
    exact h

end Parser

theorem parse_eq_run (ts : List Token) : parse ts = Parser.start.run ts >>= Parser.finish :=
  rfl

theorem parse_eq_ok_iff_run {ts : List Token} {t : Tree} :
    parse ts = .ok t ↔ Parser.start.run ts = .ok (.done t) := by
  rw [parse_eq_run]
  constructor
  case mp =>
    intro h
    cases hr : Parser.start.run ts <;> rw [hr] at h
    case error => cases h
    case ok p  =>
      change p.finish = .ok t at h
      cases p
      case done      => cases h; rfl
      case reading s => cases s <;> cases h
      all_goals cases h
  case mpr =>
    intro h
    rw [h]
    rfl

namespace Parser

mutual

-- Any stack may lie under an expression, as long as there is room for its parentheses.
theorem run_expression {ts : List Token} {t : Tree} (s : List Frame) :
    (Expression ts t) → (deepest s.length ts ≤ nestingLimit) →
    (reading s).run ts = .ok (supply s t)
  | .atom a, _ =>
    Takes.atom a |>.run_single
  | .wrapped (a := a) hl ha hr, h => by
    rw [deepest_cons_leftParen hl] at h
    have hs := Nat.le_trans (le_deepest ..) h
    rw [(Takes.left hl hs).run_cons, (Takes.wrapped ha).run_cons, (Takes.unwrap hr).run_single]
  | .apply (o := o) hl ho es, h => by
    rw [deepest_cons_leftParen hl] at h
    have hs := Nat.le_trans (le_deepest ..) h
    simp only [deepest, Token.level_of_operator ho, deepest_append] at h
    have hr := run_expressions ⟨operator o, []⟩ s es (by omega)
    rw [(Takes.left hl hs).run_cons, (Takes.operator ho).run_cons, run_append_of_eq hr]
    rw [Takes.right.run_single, List.append_nil, List.reverse_reverse]

theorem run_expressions {ts : List Token} {us : List Tree} (f : Frame) (s : List Frame) :
    (Expressions ts us) → (deepest (s.length + 1) ts ≤ nestingLimit) →
    (reading (f :: s)).run ts = .ok (.reading (⟨f.op, us.reverse ++ f.args⟩ :: s))
  | .nil, _ =>
    rfl
  | .cons (t := t) e es, h => by
    rw [deepest_append, e.openAfter_eq] at h
    have he := run_expression (f :: s) e (by simp only [List.length_cons]; omega)
    have hes := run_expressions ⟨f.op, t :: f.args⟩ s es (by omega)
    rw [run_append_of_eq he, supply, hes]
    simp

end

-- The tokens behind the open applications: each begins with a parenthesis and its operator, and
-- goes on with the arguments that are there.
inductive Pending : List Token → List Frame → Prop
  | nil :
    Pending [] []
  | cons {ts us l o args s} :
    (Pending ts s) → (l.kind = .leftParen) → (o.kind = .operator) →
    (Expressions us args.reverse) → Pending (ts ++ l :: o :: us) (⟨operator o, args⟩ :: s)

-- The tokens that a parser has read so far.
inductive Reads : List Token → Parser → Prop
  | reading {ts s} :
    (Pending ts s) → Reads ts (.reading s)
  | opened {ts l s} :
    (Pending ts s) → (l.kind = .leftParen) → Reads (ts ++ [l]) (.opened s)
  | closing {ts l a s t} :
    (Pending ts s) → (l.kind = .leftParen) → (Atom a t) → Reads (ts ++ [l, a]) (.closing s t)
  | done {ts t} :
    (Expression ts t) → Reads ts (.done t)

theorem Pending.supply {ts us : List Token} {s : List Frame} {t : Tree} (e : Expression us t) :
    (Pending ts s) → Reads (ts ++ us) (supply s t)
  | .nil => .done e
  | .cons h hl ho es => by
    have es := es.snoc e
    rw [← List.reverse_cons] at es
    rw [List.append_assoc]
    exact .reading (h.cons hl ho es)

theorem Pending.openAfter_eq {ts : List Token} {s : List Frame} :
    (Pending ts s) → openAfter 0 ts = s.length
  | .nil => rfl
  | .cons h hl ho es => by
    rw [openAfter_append, h.openAfter_eq]
    simp only [openAfter, Token.level_of_leftParen hl, Token.level_of_operator ho]
    exact es.openAfter_eq _

namespace Reads

-- Closing the innermost application makes an expression of its tokens.
theorem right {ts : List Token} {f : Frame} {s : List Frame} :
    (Pending ts (f :: s)) →
    Reads (ts ++ [⟨.rightParen, ")"⟩]) (supply s (.apply f.op f.args.reverse))
  | .cons h hl ho es => by simpa using h.supply (.apply hl ho es)

theorem takes {ts : List Token} {p q : Parser} {a : Token} :
    (Reads ts p) → (Takes p a q) → Reads (ts ++ [a]) q
  | .reading h,       .atom ha     => h.supply (.atom ha)
  | .reading h,       .left hl _   => .opened h hl
  | .reading h,       .right       => right h
  | .opened h hl,     .wrapped ha  => by simpa using Reads.closing h hl ha
  | .opened h hl,     .operator ho => by simpa using Reads.reading (h.cons hl ho .nil)
  | .closing h hl ha, .unwrap hr   => by simpa using h.supply (.wrapped hl ha hr)

-- The parentheses that are open are the ones that a parser knows to be.
theorem openAfter_eq {ts : List Token} {s : List Frame} (h : Reads ts (.reading s)) :
    openAfter 0 ts = s.length := by
  cases h
  case reading h => exact h.openAfter_eq

theorem takes_nesting {ts : List Token} {p q : Parser} {a : Token}
    (h : Reads ts p) (ht : Takes p a q) (hn : nesting ts ≤ nestingLimit) :
    nesting (ts ++ [a]) ≤ nestingLimit := by
  have ho := Nat.le_trans (openAfter_le_deepest 0 ts) hn
  rw [nesting, deepest_append, Nat.max_le]
  refine ⟨hn, ?_⟩
  simp only [deepest, Nat.max_le]
  refine ⟨ho, ?_⟩
  cases ht
  case left hs hl =>
    rw [Token.level_of_leftParen hl, h.openAfter_eq]
    exact hs
  case atom ha     => exact ha.level ▸ ho
  case wrapped ha  => exact ha.level ▸ ho
  case operator hk => exact Token.level_of_operator hk ▸ ho
  case right       => exact Nat.le_trans (Nat.sub_le ..) ho
  case unwrap hr   => exact Token.level_of_rightParen hr ▸ Nat.le_trans (Nat.sub_le ..) ho

-- What a step preserves, a run preserves.
theorem run {ts us : List Token} {p q : Parser}
    (h : Reads ts p) (hn : nesting ts ≤ nestingLimit) (hr : p.run us = .ok q) :
    Reads (ts ++ us) q ∧ nesting (ts ++ us) ≤ nestingLimit := by
  induction us generalizing ts p
  case nil =>
    cases hr
    rw [List.append_nil]
    exact ⟨h, hn⟩
  case cons a us hi =>
    obtain ⟨p', ht, hr⟩ := run_cons_iff.mp hr
    rw [List.append_cons]
    exact hi (h.takes ht) (h.takes_nesting ht hn) hr

end Reads
end Parser

theorem Grammar.Sentence.parse_eq {ts : List Token} {t : Tree} (h : Sentence ts t) :
    parse ts = .ok t :=
  parse_eq_ok_iff_run.mpr (Parser.run_expression [] h.expression h.nesting)

theorem sentence_of_parse {ts : List Token} {t : Tree} (h : parse ts = .ok t) : Sentence ts t := by
  have hr := parse_eq_ok_iff_run.mp h
  have ⟨hd, hn⟩ := Parser.Reads.run (.reading .nil) (Nat.zero_le _) hr
  cases hd
  case done e => exact ⟨e, hn⟩

theorem parse_eq_ok_iff {ts : List Token} {t : Tree} : parse ts = .ok t ↔ Sentence ts t :=
  ⟨sentence_of_parse, (·.parse_eq)⟩

theorem parse_decides_grammar (ts : List Token) :
    (∀ t, parse ts = .ok t ↔ Sentence ts t) ∧ (∀ t u, Sentence ts t → Sentence ts u → t = u) := by
  refine ⟨fun _ => parse_eq_ok_iff, fun t u ht hu => ?_⟩
  have h := ht.parse_eq.symm.trans hu.parse_eq
  injection h

end Polish
