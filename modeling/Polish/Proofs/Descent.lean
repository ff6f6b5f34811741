import Polish.Proofs.Viability
import Polish.Tree.Descent

namespace Polish

open Parser (Frame supply)
open Token (Cursor)

namespace Parser

variable {stack : List Frame} {a : Token} {r : Except Error Tree}

theorem exists_atom? (h : a.kind.isAtom) : ∃ r, atom? a = some r :=
  Option.isSome_iff_exists.mp ((atom?_isSome a).trans h)

theorem step_reading_of_atom (h : atom? a = some r) :
    (reading stack).step a = r.map (supply stack) := by
  simp only [step, h]

theorem step_opened_of_atom (h : atom? a = some r) :
    (opened stack).step a = r.map (closing stack) := by
  simp only [step, h]

theorem step_reading_of_leftParen (h : a.kind = .leftParen) :
    (reading stack).step a =
      if nestingLimit ≤ stack.length then .error (.nestingTooDeep nestingLimit)
      else .ok (.opened stack) := by
  have hn : atom? a = none := atom?_eq_none_iff.mpr (by rw [h]; rfl)
  simp only [step, hn, h]

theorem step_reading_of_rightParen {f : Frame} (h : a.kind = .rightParen) :
    (reading (f :: stack)).step a =
      if a.text = ")" then .ok (supply stack (.apply f.op f.args.reverse))
      else .error (.expected ")" a.text) := by
  have hn : atom? a = none := atom?_eq_none_iff.mpr (by rw [h]; rfl)
  simp only [step, hn, h]

-- Where an expression is wanted, no other kind of token will do.
theorem step_reading_of_other (ha : a.kind.isAtom = false) (hl : a.kind ≠ .leftParen)
    (hr : stack = [] ∨ a.kind ≠ .rightParen) :
    (reading stack).step a = .error (.unexpectedToken a.text) := by
  simp only [step, atom?_eq_none_iff.mpr ha]
  split
  case h_1 hk => contradiction
  case h_2 hk => simp [hk] at hr
  case h_3    => rfl

-- What comes of a parser and the tokens that are left.
def resume (p : Parser) (ts : List Token) : Except Error Tree :=
  p.run ts >>= finish

theorem resume_cons (p : Parser) (a : Token) (ts : List Token) :
    p.resume (a :: ts) = p.step a >>= fun q => q.resume ts := by
  rw [resume, run_cons]
  cases p.step a <;> rfl

end Parser

namespace Descent

variable {a : Token} {rest : List Token}

-- The cursor behind the first token.
def past (a : Token) (rest : List Token) : Cursor.Below (Cursor.remaining ⟨a :: rest⟩) :=
  ⟨⟨rest⟩, Nat.lt_succ_self _⟩

theorem expect_cons {wanted : String} {fits : Token → Bool} :
    expect wanted fits ⟨a :: rest⟩ =
      if fits a then .ok (a, past a rest) else .error (.expected wanted a.text) :=
  rfl

theorem expectKind_cons {kind : Token.Kind} :
    expectKind kind ⟨a :: rest⟩ =
      if a.kind = kind then .ok (a, past a rest) else .error (.expected kind.describe a.text) := by
  rw [expectKind, expect_cons]
  simp only [beq_iff_eq]

theorem expectText_cons {text : String} :
    expectText text ⟨a :: rest⟩ =
      if a.text = text then .ok (a, past a rest) else .error (.expected text a.text) := by
  rw [expectText, expect_cons]
  simp only [beq_iff_eq]

theorem atom_of_some {r : Except Error Tree} (h : Parser.atom? a = some r) :
    atom ⟨a :: rest⟩ = r.map (·, past a rest) := by
  have hp : peek "literal" ⟨a :: rest⟩ = pure a := rfl
  simp only [atom, hp, pure_bind, h]
  cases r <;> rfl

section Expression

variable (levels : Nat)

theorem expression_nil : expression levels ⟨[]⟩ = .error (.unexpectedEnd "expression") := by
  rw [expression.eq_def]
  rfl

theorem expression_zero_of_leftParen (h : a.kind = .leftParen) :
    expression 0 ⟨a :: rest⟩ = .error (.nestingTooDeep nestingLimit) := by
  rw [expression]
  change (if a.kind = .leftParen then expectKind .leftParen ⟨a :: rest⟩ >>= _ else _) = _
  rw [if_pos h, expectKind_cons, if_pos h]
  rfl

theorem expression_succ_of_leftParen (h : a.kind = .leftParen) :
    expression (levels + 1) ⟨a :: rest⟩ =
      (inner (expression levels) ⟨rest⟩).map fun o =>
        (o.1, o.2.widen (Nat.le_of_lt (past a rest).property)) := by
  rw [expression]
  change (if a.kind = .leftParen then expectKind .leftParen ⟨a :: rest⟩ >>= _ else _) = _
  rw [if_pos h, expectKind_cons, if_pos h]
  rfl

theorem expression_of_not_leftParen (h : a.kind ≠ .leftParen) :
    expression levels ⟨a :: rest⟩ =
      if a.kind.isAtom then atom ⟨a :: rest⟩ else .error (.unexpectedToken a.text) := by
  rw [expression.eq_def]
  exact if_neg h

end Expression

variable {stack : List Frame} {e : (c : Cursor) → Reading Tree c}

-- With these tokens left, a parser goes on as if it had been handed the tree that is read through
-- the cursor.
def Meets (p : Parser) (stack : List Frame) (c : Cursor) (r : Reading Tree c) : Prop :=
  p.resume c.rest = r >>= fun o => (supply stack o.1).resume o.2.val.rest

-- Within an application, the cursor is on a token that does not end it.
def Begins (stack : List Frame) (c : Cursor) : Prop :=
  stack = [] ∨ ∃ a, c.look = some a ∧ a.kind ≠ .rightParen

theorem meets_atom (h : a.kind.isAtom) :
    Meets (.reading stack) stack ⟨a :: rest⟩ (atom ⟨a :: rest⟩) := by
  obtain ⟨r, hr⟩ := Parser.exists_atom? h
  rw [Meets, Parser.resume_cons, Parser.step_reading_of_atom hr, atom_of_some hr]
  cases r <;> rfl

section Arguments

variable (he : ∀ f c, Begins (f :: stack) c → Meets (.reading (f :: stack)) (f :: stack) c (e c))
include he

-- Each argument that is read goes to the frame on top of the stack.
theorem resume_expressions (f : Frame) (c : Cursor) :
    (Parser.reading (f :: stack)).resume c.rest =
      expressions e c >>= fun o => expectText ")" o.2.val >>= fun l =>
        (supply stack (.apply f.op (f.args.reverse ++ o.1))).resume l.2.val.rest := by
  rw [expressions]
  obtain ⟨_ | ⟨a, rest⟩⟩ := c
  case nil  => rfl
  case cons =>
    have hl : Cursor.look ⟨a :: rest⟩ = some a := rfl
    simp only [hl]
    split
    case isTrue hk =>
      change _ = expectText ")" ⟨a :: rest⟩ >>= _
      rw [expectText_cons, Parser.resume_cons, Parser.step_reading_of_rightParen hk]
      split
      case isTrue  => rw [List.append_nil]; rfl
      case isFalse => rfl
    case isFalse hk =>
      rw [he f _ (.inr ⟨a, hl, hk⟩)]
      match e ⟨a :: rest⟩ with
      | .error _      => rfl
      | .ok (t, next) =>
        have hi := resume_expressions { f with args := t :: f.args } next.val
        simp only [List.reverse_cons, List.append_assoc, List.singleton_append] at hi
        change Parser.resume _ _ = (expressions e next.val >>= fun o => pure (t :: o.1, _)) >>= _
        simp only [bind_assoc, pure_bind]
        exact hi
termination_by c.remaining
decreasing_by exact next.property

theorem meets_inner (c : Cursor) : Meets (.opened stack) stack c (inner e c) := by
  obtain ⟨_ | ⟨a, rest⟩⟩ := c
  case nil  => rfl
  case cons =>
    change _ = (if a.kind.isAtom then _ else _) >>= _
    rw [Parser.resume_cons]
    split
    case isTrue ha =>
      obtain ⟨r, hr⟩ := Parser.exists_atom? ha
      rw [Parser.step_opened_of_atom hr, atom_of_some hr]
      match r, rest with
      | .error _, _       => rfl
      | .ok _, []         => rfl
      | .ok t, b :: rest' =>
        change (Parser.closing stack t).resume (b :: rest') =
          (expectKind .rightParen ⟨b :: rest'⟩ >>= _) >>= _
        rw [Parser.resume_cons, expectKind_cons, Parser.step]
        split <;> rfl
    case isFalse ha =>
      have hn : Parser.atom? a = none := Parser.atom?_eq_none_iff.mpr (Bool.eq_false_iff.mpr ha)
      rw [expectKind_cons]
      simp only [Parser.step, hn]
      split
      case isFalse => rfl
      case isTrue  =>
        refine (resume_expressions he ⟨_, []⟩ ⟨rest⟩).trans ?_
        change _ =
          (expressions e ⟨rest⟩ >>= fun o => expectText ")" o.2.val >>= fun l => pure _) >>= _
        simp only [bind_assoc, pure_bind]
        rfl

end Arguments

-- The levels that are left and the parentheses that are open always make up the limit.
theorem meets_expression (levels : Nat) (stack : List Frame) (c : Cursor)
    (h : stack.length + levels = nestingLimit) (hb : Begins stack c) :
    Meets (.reading stack) stack c (expression levels c) := by
  obtain ⟨_ | ⟨a, rest⟩⟩ := c
  case nil  =>
    obtain rfl | ⟨_, hl, _⟩ := hb
    case inl => rw [expression_nil]; rfl
    case inr => cases hl
  case cons =>
    by_cases hp : a.kind = .leftParen
    case pos =>
      rw [Meets, Parser.resume_cons, Parser.step_reading_of_leftParen hp]
      cases levels
      case zero   =>
        rw [if_pos (Nat.le_of_eq h.symm : nestingLimit ≤ stack.length)]
        rw [expression_zero_of_leftParen hp]
        rfl
      case succ n =>
        have he : ∀ f c, Begins (f :: stack) c →
            Meets (.reading (f :: stack)) (f :: stack) c (expression n c) :=
          fun f c => meets_expression n (f :: stack) c (by rw [List.length_cons]; omega)
        rw [if_neg (by omega), expression_succ_of_leftParen n hp]
        refine (meets_inner he ⟨rest⟩).trans ?_
        cases inner (expression n) ⟨rest⟩ <;> rfl
    case neg =>
      rw [expression_of_not_leftParen levels hp]
      split
      case isTrue ha  => exact meets_atom ha
      case isFalse ha =>
        have hr : stack = [] ∨ a.kind ≠ .rightParen :=
          hb.imp_right fun ⟨_, hl, hk⟩ => Option.some.inj hl ▸ hk
        rw [Meets, Parser.resume_cons]
        rw [Parser.step_reading_of_other (Bool.eq_false_iff.mpr ha) hp hr]
        rfl

theorem parse_eq (tokens : List Token) : Descent.parse tokens = Polish.parse tokens := by
  have h := meets_expression nestingLimit [] ⟨tokens⟩ (Nat.zero_add _) (.inl rfl)
  refine Eq.trans ?_ h.symm
  rw [Descent.parse]
  cases expression nestingLimit ⟨tokens⟩
  case error => rfl
  case ok o  => obtain ⟨t, ⟨_ | _⟩, _⟩ := o <;> rfl

-- The cursor is never moved on where there is no token left.
theorem parse_ne_lexer (tokens : List Token) (message : String) :
    Descent.parse tokens ≠ .error (.lexer message) := by
  intro h
  rw [parse_eq, parse_eq_run] at h
  cases hr : Parser.start.run tokens <;> rw [hr] at h
  case error =>
    obtain ⟨_, _, _, _, _, _, hs⟩ := Parser.exists_step_of_run hr
    cases h
    cases Parser.blames_of_step hs
  case ok =>
    obtain ⟨_, hw⟩ := Parser.end_of_finish h
    cases hw

end Descent
end Polish
