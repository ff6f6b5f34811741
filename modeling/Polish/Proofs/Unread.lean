import Polish.Proofs.Buffering

namespace Polish

namespace Source

-- More octets after those of a source, and then an end or a break.
def extend (more : List UInt8) (broken : Bool) (s : Source) : Source where
  bytes  := s.bytes ++ more
  broken := broken

-- A call finds what ends its word or line, and whatever ends it still does so if more comes after.
-- Where it does not, it uses up the source, which ends or else is broken.
theorem Call.Answers.stops {call : Call} {broken : Bool} {bytes rest : List UInt8}
    {answer : Answer} (h : call.Answers broken bytes answer rest) :
    ((∃ text, answer = .ok (some text)) ∧
      ∀ more broken', call.Answers broken' (bytes ++ more) answer (rest ++ more)) ∨
    (rest = [] ∧ (broken = false ∨ answer = .error brokenError)) := by
  cases h
  case word hs hw hn hb =>
    refine .inl ⟨⟨_, rfl⟩, fun more broken' => ?_⟩
    simp only [List.append_assoc, List.cons_append]
    exact .word hs hw hn hb
  case line hl =>
    refine .inl ⟨⟨_, rfl⟩, fun more broken' => ?_⟩
    simp only [List.append_assoc, List.cons_append]
    exact .line hl
  case lostWord | lostLine => exact .inr ⟨rfl, .inr rfl⟩
  all_goals exact .inr ⟨rfl, .inl ‹_›⟩

theorem Call.read_extend (call : Call) {s : Source} (h : (call.read s).2.bytes ≠ [])
    (more : List UInt8) (broken : Bool) :
    call.read (s.extend more broken) = ((call.read s).1, (call.read s).2.extend more broken) := by
  have ⟨_, he⟩ := (call.answers_read s).stops.resolve_right (h ·.left)
  exact (he more broken).read_eq

end Source

-- More input.
def Machine.extend (more : List UInt8) (broken : Bool) (m : Machine) : Machine :=
  { m with input := m.input.extend more broken }

-- A computation that only takes from the front of the input, and to which it makes no difference
-- what comes after the input, as long as there is something left of it.
structure Eval.Overlooks {α : Type} (x : Eval α) : Prop where
  takes : ∀ m : Machine, (m.exec x).2.input.bytes <:+ m.input.bytes
  same  : ∀ m : Machine, (m.exec x).2.input.bytes ≠ [] → ∀ more broken,
    (m.extend more broken).exec x = ((m.exec x).1, (m.exec x).2.extend more broken)

namespace Eval.Overlooks

variable {α β : Type}

theorem silent {x : Eval α} (h : x.Deaf) : Overlooks x := by
  constructor
  case takes =>
    intro m
    have ⟨r, env, output, h⟩ := h m.env m.output
    exact (h m.input).symm ▸ List.suffix_refl _
  case same =>
    intro m _ more broken
    have ⟨r, env, output, h⟩ := h m.env m.output
    rw [h m.input, Machine.extend, h]
    rfl

theorem bind {x : Eval α} {f : α → Eval β} (h : Overlooks x) (hf : ∀ a, Overlooks (f a)) :
    Overlooks (x >>= f) := by
  constructor
  case takes =>
    intro m
    have ht := h.takes m
    match hx : m.exec x with
    | (.error e, m') => rw [Machine.exec_bind_of_error hx]; rwa [hx] at ht
    | (.ok a, m')    =>
      rw [hx] at ht
      rw [Machine.exec_bind_of_ok hx]
      exact ((hf a).takes m').trans ht
  case same =>
    intro m hn more broken
    have hs := h.same m
    match hx : m.exec x with
    | (.error e, m') =>
      rw [Machine.exec_bind_of_error hx] at hn ⊢
      rw [hx] at hs
      exact Machine.exec_bind_of_error (hs hn more broken) f
    | (.ok a, m') =>
      -- Something is left in the end, so something was left in between.
      rw [Machine.exec_bind_of_ok hx] at hn ⊢
      rw [hx] at hs
      have hl : m'.input.bytes ≠ [] := mt (fun he => List.suffix_nil.mp (he ▸ (hf a).takes m')) hn
      rw [Machine.exec_bind_of_ok (hs hl more broken)]
      exact (hf a).same m' hn more broken

theorem readWord : Overlooks readWord where
  takes m := Source.Call.word.bytes_suffix m.input
  same m hn more broken := by
    have hr := Source.Call.word.read_extend hn more broken
    exact Prod.ext (congrArg (·.1) hr) (congrArg (fun o => { m with input := o.2 }) hr)

end Eval.Overlooks

theorem Tree.overlooks_eval (t : Tree) : t.eval.Overlooks :=
  eval_of_readWord (P := Eval.Overlooks) .silent .bind .readWord t

-- A call that leaves something in the source has found what ends its word, and has not looked any
-- further.
theorem exec_eval_unread (t : Tree) (m : Machine) (h : (m.exec t.eval).2.input.bytes ≠ [])
    (more : List UInt8) (broken : Bool) :
    Machine.exec { m with input := ⟨m.input.bytes ++ more, broken⟩ } t.eval =
      ((m.exec t.eval).1,
        { (m.exec t.eval).2 with input := ⟨(m.exec t.eval).2.input.bytes ++ more, broken⟩ }) :=
  t.overlooks_eval.same m h more broken

-- One word is read and assigned before evaluation fails. What is left is a space, which ends the word.
theorem exec_eval_unread_after_error :
    let t : Tree := .apply .program [
      .apply .assign [.ident "x", .apply .input [.const (.text "?")]], .ident "y"]
    let m : Machine := { input := { bytes := [0x20, 0x61, 0x62, 0x20] } }
    let n : Machine := { m with input := ⟨[0x20, 0x61, 0x62, 0x20, 0x63, 0x0a], true⟩ }
    (m.exec t.eval).2.input.bytes = [0x20] ∧
    (n.exec t.eval).1 = .error (.unassigned "y") ∧
    (n.exec t.eval).2.env.get? "x" = some (.text "ab") ∧
    (n.exec t.eval).2.output.written = [0x3f] ∧
    (n.exec t.eval).2.input = ⟨[0x20, 0x63, 0x0a], true⟩ := by
  intro t m n
  have h : (m.exec t.eval).2.input.bytes = [0x20] := by rfl
  have hn : n.exec t.eval = _ := exec_eval_unread t m (by rw [h]; nofun) [0x63, 0x0a] true
  rw [hn]
  exact ⟨h, rfl, rfl, rfl, rfl⟩

end Polish
