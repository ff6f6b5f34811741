import Polish.Proofs.Law

namespace Polish

open Text

namespace Source

inductive Call
  | word
  | line
deriving DecidableEq, Repr

namespace Call

def read : Call → Source → Except Error (Option String) × Source
  | .word => readWord
  | .line => readLine

-- The octets that a call hands out, unless it fails. None are handed out where there is nothing
-- left to read.
def octets : Call → Source → List UInt8
  | .word, s => (s.bytes.dropWhile isSpaceOctet).takeWhile (!isSpaceOctet ·)
  | .line, s => s.bytes.takeWhile (· != lineFeed) ++ (s.bytes.dropWhile (· != lineFeed)).take 1

variable {s : Source}

theorem read_broken (call : Call) : (call.read s).2.broken = s.broken := by
  cases call
  case word => rw [read, readWord]; split <;> rfl
  case line =>
    rw [read, readLine]
    split
    case h_1 => rfl
    case h_2 => split <;> rfl

-- Only a source that is broken fails a call.
theorem read_result (h : s.broken = false) (call : Call) :
    (call.read s).1 =
      .ok (if (call.octets s).isEmpty then none else some (Utf8.decodeLossy (call.octets s))) := by
  cases call
  case word => simp [read, readWord, octets, h]
  case line =>
    rw [read, readLine, octets]
    split
    case h_1 hd => simp [hd]
    case h_2 hd => simp [hd, h]

theorem octets_line_append (s : Source) :
    Call.line.octets s ++ (Call.line.read s).2.bytes = s.bytes := by
  have hb := List.takeWhile_append_dropWhile (p := (· != lineFeed)) (l := s.bytes)
  rw [read, readLine, octets]
  split
  case h_1 hd => simpa [hd] using hb
  case h_2 hd => split <;> simpa [hd] using hb

theorem octets_line_eq_nil_iff : Call.line.octets s = [] ↔ s.bytes = [] := by
  constructor
  case mp =>
    intro h
    obtain ⟨ht, hd⟩ := List.append_eq_nil_iff.mp h
    have hd : s.bytes.dropWhile (· != lineFeed) = [] := by simpa using hd
    rw [← List.takeWhile_append_dropWhile (p := (· != lineFeed)) (l := s.bytes), ht, hd]
    rfl
  case mpr =>
    intro h
    rw [octets, h]
    rfl

-- Blanks before a word are passed over; all else that a call takes is handed out.
theorem octets_sublist (call : Call) (s : Source) :
    (call.octets s ++ (call.read s).2.bytes).Sublist s.bytes := by
  cases call
  case line => simp [octets_line_append]
  case word =>
    let start := s.bytes.dropWhile isSpaceOctet
    have hs : start.Sublist s.bytes := List.dropWhile_sublist _
    rw [read, readWord, octets]
    split
    case isTrue  => simpa using (List.takeWhile_sublist _).trans hs
    case isFalse => simpa [List.takeWhile_append_dropWhile] using hs

theorem bytes_suffix (call : Call) (s : Source) : (call.read s).2.bytes <:+ s.bytes := by
  cases call
  case line => exact ⟨_, octets_line_append s⟩
  case word =>
    rw [read, readWord]
    split
    case isTrue  => exact List.nil_suffix
    case isFalse => exact (List.dropWhile_suffix _).trans (List.dropWhile_suffix _)

-- The calls of an evaluation that asks for `n` words.
def words (n : Nat) : List Call :=
  List.replicate n .word

theorem words_add (n k : Nat) : words (n + k) = words n ++ words k :=
  List.replicate_append_replicate.symm

end Call

-- What some calls in a row leave.
def after (s : Source) : List Call → Source
  | []            => s
  | call :: calls => (call.read s).2.after calls

-- What each of them hands out.
def handed (s : Source) : List Call → List (List UInt8)
  | []            => []
  | call :: calls => call.octets s :: (call.read s).2.handed calls

variable {s : Source}

theorem after_append (calls calls' : List Call) :
    s.after (calls ++ calls') = (s.after calls).after calls' := by
  induction calls generalizing s
  case nil                => rfl
  case cons call calls hi => exact hi

theorem handed_append (calls calls' : List Call) :
    s.handed (calls ++ calls') = s.handed calls ++ (s.after calls).handed calls' := by
  induction calls generalizing s
  case nil                => rfl
  case cons call calls hi => exact congrArg _ hi

theorem length_handed (calls : List Call) : (s.handed calls).length = calls.length := by
  induction calls generalizing s
  case nil                => rfl
  case cons call calls hi => exact congrArg _ hi

theorem after_broken (calls : List Call) : (s.after calls).broken = s.broken := by
  induction calls generalizing s
  case nil                => rfl
  case cons call calls hi => exact hi.trans (call.read_broken)

theorem after_bytes_suffix (calls : List Call) : (s.after calls).bytes <:+ s.bytes := by
  induction calls generalizing s
  case nil                => exact List.suffix_refl _
  case cons call calls hi => exact hi.trans (call.bytes_suffix s)

-- No octet is handed out twice, or handed out and left to be read again.
theorem handed_sublist (calls : List Call) :
    ((s.handed calls).flatten ++ (s.after calls).bytes).Sublist s.bytes := by
  induction calls generalizing s
  case nil                => exact List.Sublist.refl _
  case cons call calls hi =>
    rw [handed, List.flatten_cons, List.append_assoc]
    exact (hi.append_left _).trans (call.octets_sublist s)

end Source

open Source.Call (words words_add)

namespace Eval

variable {α β : Type}

-- A computation that does not use the input.
def Deaf (x : Eval α) : Prop :=
  ∀ env output, ∃ r env' output', ∀ input,
    Machine.exec ⟨env, input, output⟩ x = (r, ⟨env', input, output'⟩)

theorem deaf_pure (a : α) : Deaf (pure a) :=
  fun env output => ⟨.ok a, env, output, fun _ => rfl⟩

theorem deaf_throw (e : Error) : Deaf (throw e : Eval α) :=
  fun env output => ⟨.error e, env, output, fun _ => rfl⟩

theorem deaf_assign (name : String) (v : Value) : Deaf (assign name v) :=
  fun env output => ⟨.ok (), env.set name v, output, fun _ => rfl⟩

theorem deaf_write (text : String) : Deaf (write text) :=
  fun env output => ⟨(output.write text).1, env, (output.write text).2, fun _ => rfl⟩

theorem deaf_lookup (name : String) : Deaf (lookup name) := by
  intro env output
  let r : Except Error Value := (env.get? name).elim (.error (.unassigned name)) .ok
  exact ⟨r, env, output, fun input => Machine.exec_lookup { env, input, output } name⟩

end Eval

section Law

variable {P : {α : Type} → Eval α → Prop}
  (deaf : ∀ {α : Type} {x : Eval α}, x.Deaf → P x)
  (bind : ∀ {α β : Type} {x : Eval α} {f : α → Eval β}, (P x) → (∀ a, P (f a)) → P (x >>= f))

def Consumption.law : Law where
  Holds x _ := P x
  pure a    := deaf (Eval.deaf_pure a)
  bind      := bind
  operand _ := deaf (Eval.deaf_throw _)

include deaf bind

theorem Consumption.respects (read : P Eval.readWord) :
    (a : Action) → (law deaf bind).Respects a
  | .lookup name => deaf (Eval.deaf_lookup name)
  | .assign name => fun v => deaf (Eval.deaf_assign name v)
  | .print       => fun text => deaf (Eval.deaf_write text)
  | .input       => Law.respects_input (L := law deaf bind) read (deaf (Eval.deaf_throw _))

-- Evaluation is put together from calls for words and from computations that do not use the input.
theorem Tree.eval_of_readWord (read : P Eval.readWord) (t : Tree) : P t.eval :=
  Law.holds_eval (L := Consumption.law deaf bind) t
    (fun a _ => Consumption.respects deaf bind read a)
    (fun _ _ _ _ => deaf (Eval.deaf_throw _))

end Law

-- A computation that calls for words, and to which nothing in the input but these makes a
-- difference.
def Eval.Hears {α : Type} (x : Eval α) : Prop :=
  ∀ m : Machine, m.input.broken = false → ∃ n, ∀ s : Source, s.broken = false →
    s.handed (words n) = m.input.handed (words n) →
    { m with input := s }.exec x =
      ((m.exec x).1, { (m.exec x).2 with input := s.after (words n) })

namespace Eval.Hears

variable {α β : Type}

theorem silent {x : Eval α} (h : x.Deaf) : Hears x := by
  intro m _
  have ⟨r, env, output, h⟩ := h m.env m.output
  refine ⟨0, fun s _ _ => ?_⟩
  rw [h s]
  have hm : m.exec x = _ := h m.input
  rw [hm]
  rfl

theorem bind {x : Eval α} {f : α → Eval β} (h : Hears x) (hf : ∀ a, Hears (f a)) :
    Hears (x >>= f) := by
  intro m hb
  obtain ⟨n, hn⟩ := h m hb
  generalize hx : m.exec x = o at hn
  obtain ⟨r, m'⟩ := o
  have hi : m'.input = m.input.after (words n) := by
    have hm := hx.symm.trans (hn m.input hb rfl)
    exact congrArg (·.2.input) hm
  cases r
  case error e =>
    refine ⟨n, fun s hs he => ?_⟩
    rw [Machine.exec_bind_of_error hx, Machine.exec_bind_of_error (hn s hs he)]
  case ok a =>
    -- The rest calls for more words, of what the first calls have left.
    obtain ⟨k, hk⟩ := hf a m' (by rw [hi, Source.after_broken, hb])
    refine ⟨n + k, fun s hs he => ?_⟩
    rw [words_add, Source.handed_append, Source.handed_append, ← hi] at he
    obtain ⟨hl, hr⟩ := List.append_inj he (by rw [Source.length_handed, Source.length_handed])
    have hs' : (s.after (words n)).broken = false := by rw [Source.after_broken, hs]
    rw [Machine.exec_bind_of_ok hx, Machine.exec_bind_of_ok (hn s hs hl)]
    rw [words_add, Source.after_append]
    exact hk (s.after (words n)) hs' hr

theorem readWord : Hears readWord := by
  intro m hb
  refine ⟨1, fun s hs he => ?_⟩
  have ho : Source.Call.word.octets s = Source.Call.word.octets m.input := List.cons.inj he |>.left
  have hr : s.readWord.1 = m.input.readWord.1 :=
    (Source.Call.word.read_result hs).trans (ho ▸ (Source.Call.word.read_result hb).symm)
  exact Prod.ext hr rfl

end Eval.Hears

theorem Tree.hears_eval (t : Tree) : t.eval.Hears :=
  eval_of_readWord (P := Eval.Hears) .silent .bind .readWord t

end Polish
