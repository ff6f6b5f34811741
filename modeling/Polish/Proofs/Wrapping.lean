import Polish.Proofs.Parsing

namespace Polish

open Grammar

namespace Parser

variable {p q : Parser} {a l r : Token}

namespace Takes

theorem exists_of_leftParen (h : Takes p a q) (ha : a.kind = .leftParen) :
    ∃ s, p = .reading s ∧ q = .opened s ∧ s.length < nestingLimit := by
  cases h
  case left s hs _ => exact ⟨s, rfl, rfl, hs⟩
  case atom h      => cases h <;> cases ha
  case wrapped h   => cases h <;> cases ha
  case right       => cases ha
  case operator ho => cases ho.symm.trans ha
  case unwrap hr   => cases hr.symm.trans ha

-- Only a left parenthesis makes a parser wait for an operator or an atom.
theorem kind_of_opened {s : List Frame} (h : Takes p a (.opened s)) : a.kind = .leftParen := by
  generalize hq : opened s = q at h
  cases h
  case left h => exact h
  case atom s _ _ | right s | unwrap s _ _ => cases s <;> cases hq
  case wrapped | operator => cases hq

theorem exists_of_atom (h : Takes p a q) (ha : a.kind.isAtom) :
    ∃ s t, Atom a t ∧ (p = .reading s ∧ q = supply s t ∨ p = .opened s ∧ q = .closing s t) := by
  cases h
  case atom s t h    => exact ⟨s, t, h, .inl ⟨rfl, rfl⟩⟩
  case wrapped s t h => exact ⟨s, t, h, .inr ⟨rfl, rfl⟩⟩
  case left hl       => rw [hl] at ha; cases ha
  case operator ho   => rw [ho] at ha; cases ha
  case unwrap hr     => rw [hr] at ha; cases ha
  case right         => cases ha

end Takes

-- The heart of the matter, for a parser in any state and whatever comes after.
theorem run_wrapped_iff {us : List Token} (hl : l.kind = .leftParen) (ha : a.kind.isAtom)
    (hr : r.kind = .rightParen) :
    p.run (l :: a :: r :: us) = .ok q ↔
      (∃ s, p = .reading s ∧ s.length < nestingLimit) ∧ p.run (a :: us) = .ok q := by
  constructor
  case mp =>
    intro h
    obtain ⟨_, ht, h⟩ := run_cons_iff.mp h
    obtain ⟨s, rfl, rfl, hs⟩ := ht.exists_of_leftParen hl
    obtain ⟨_, ht, h⟩ := run_cons_iff.mp h
    obtain ⟨_, t, hat, ⟨hp, _⟩ | ⟨hp, rfl⟩⟩ := ht.exists_of_atom ha <;> cases hp
    rw [(Takes.unwrap hr).run_cons] at h
    exact ⟨⟨s, rfl, hs⟩, (Takes.atom hat).run_cons us ▸ h⟩
  case mpr =>
    rintro ⟨⟨s, rfl, hs⟩, h⟩
    obtain ⟨_, ht, h⟩ := run_cons_iff.mp h
    obtain ⟨_, t, hat, ⟨hp, rfl⟩ | ⟨hp, _⟩⟩ := ht.exists_of_atom ha <;> cases hp
    rw [(Takes.left hl hs).run_cons, (Takes.wrapped hat).run_cons, (Takes.unwrap hr).run_cons, h]

-- Whether a parser waits for an operator or an atom can be seen from the last token that it took.
theorem exists_opened_iff {ts : List Token} (h : start.run ts = .ok q) :
    (∃ s, q = .opened s) ↔ ∃ b ∈ ts.getLast?, b.kind = .leftParen := by
  obtain rfl | ⟨ts, b, rfl⟩ := List.eq_nil_or_concat ts
  case inl =>
    cases h
    exact ⟨nofun, nofun⟩
  case inr =>
    rw [List.concat_eq_append] at h ⊢
    obtain ⟨p, _, h⟩ := run_append_iff.mp h
    obtain ⟨_, ht, h⟩ := run_cons_iff.mp h
    cases h
    rw [List.getLast?_append, List.getLast?_singleton, Option.some_or]
    constructor
    case mp =>
      rintro ⟨s, rfl⟩
      exact ⟨b, rfl, ht.kind_of_opened⟩
    case mpr =>
      rintro ⟨_, hb, hk⟩
      cases hb
      obtain ⟨s, _, hq, _⟩ := ht.exists_of_leftParen hk
      exact ⟨s, hq⟩

theorem openAfter_of_run {ts : List Token} {s : List Frame} (h : start.run ts = .ok (.reading s)) :
    openAfter 0 ts = s.length :=
  Reads.run (.reading .nil) (Nat.zero_le _) h |>.left.openAfter_eq

-- Where an atom is taken, the tokens before it tell whether it could have been in parentheses.
theorem exists_reading_iff {ts us : List Token} (h : start.run ts = .ok p) (ha : a.kind.isAtom)
    (hp : p.run (a :: us) = .ok q) :
    (∃ s, p = .reading s ∧ s.length < nestingLimit) ↔
      openAfter 0 ts < 256 ∧ ∀ b ∈ ts.getLast?, b.kind ≠ .leftParen := by
  have hl : (∀ b ∈ ts.getLast?, b.kind ≠ .leftParen) ↔ ¬∃ s, p = .opened s := by
    rw [exists_opened_iff h]
    exact ⟨fun h ⟨b, hb, hk⟩ => h b hb hk, fun h b hb hk => h ⟨b, hb, hk⟩⟩
  rw [hl]
  obtain ⟨_, ht, _⟩ := run_cons_iff.mp hp
  obtain ⟨s, t, _, ⟨rfl, _⟩ | ⟨rfl, _⟩⟩ := ht.exists_of_atom ha
  case inl =>
    rw [openAfter_of_run h]
    exact ⟨fun ⟨_, he, hs⟩ => by cases he; exact ⟨hs, nofun⟩, fun ⟨hs, _⟩ => ⟨s, rfl, hs⟩⟩
  case inr => exact ⟨nofun, fun ⟨_, hn⟩ => absurd ⟨s, rfl⟩ hn⟩

end Parser

-- A parser that waits for an expression is in the same state after an atom as after the atom in
-- parentheses.
theorem parse_wrapped_iff (before after : List Token) (t : Tree) {l a r : Token}
    (hl : l.kind = .leftParen) (ha : a.kind.isAtom) (hr : r.kind = .rightParen) :
    (parse (before ++ a :: after) = .ok t →
      (parse (before ++ l :: a :: r :: after) = .ok t ↔
        openAfter 0 before < 256 ∧ ∀ b ∈ before.getLast?, b.kind ≠ .leftParen)) ∧
    (parse (before ++ l :: a :: r :: after) = .ok t → parse (before ++ a :: after) = .ok t) := by
  simp only [parse_eq_ok_iff_run, Parser.run_append_iff]
  constructor
  case right =>
    intro ⟨p, hp, h⟩
    exact ⟨p, hp, (Parser.run_wrapped_iff hl ha hr |>.mp h).right⟩
  case left =>
    intro ⟨p, hp, h⟩
    rw [← Parser.exists_reading_iff hp ha h]
    constructor
    case mp =>
      intro ⟨p', hp', h'⟩
      cases hp.symm.trans hp'
      exact (Parser.run_wrapped_iff hl ha hr |>.mp h').left
    case mpr =>
      intro hs
      exact ⟨p, hp, Parser.run_wrapped_iff hl ha hr |>.mpr ⟨hs, h⟩⟩

-- Once in parentheses, the atom comes after one, and cannot be put in parentheses again.
theorem parse_wrapped_iff_twice :
    let before : List Token := [⟨.leftParen, "("⟩, ⟨.operator, "+"⟩, ⟨.identifier, "x"⟩]
    let after : List Token := [⟨.rightParen, ")"⟩]
    let l : Token := ⟨.leftParen, "("⟩
    let a : Token := ⟨.string, ")"⟩
    let r : Token := ⟨.rightParen, "]"⟩
    let t : Tree := .apply .add [.ident "x", .const (.text ")")]
    (l.kind = .leftParen ∧ a.kind.isAtom ∧ r.kind = .rightParen) ∧
    (parse (before ++ a :: after) = .ok t ∧ openAfter 0 before < 256) ∧
    parse (before ++ l :: a :: r :: after) = .ok t ∧
    parse (before ++ l :: l :: a :: r :: r :: after) ≠ .ok t := by
  intro before after l a r t
  have hb : parse (before ++ a :: after) = .ok t := rfl
  have ho : openAfter 0 before < 256 := by decide
  have hw : parse (before ++ l :: a :: r :: after) = .ok t :=
    (parse_wrapped_iff before after t rfl rfl rfl).left hb |>.mpr ⟨ho, by decide⟩
  refine ⟨⟨rfl, rfl, rfl⟩, ⟨hb, ho⟩, hw, fun h => ?_⟩
  have ⟨_, hn⟩ := (parse_wrapped_iff (before ++ [l]) (r :: after) t rfl rfl rfl).left hw |>.mp h
  exact hn l rfl rfl

end Polish
