import Polish.Proofs.Confinement
import Polish.Proofs.Failure
import Polish.Proofs.Unread

namespace Polish

namespace Source

-- On a source that is broken, a call is lost or else has not looked any further than it had to.
theorem Call.read_settles (call : Call) {s : Source} (hb : s.broken)
    (h : wantsMore (call.read s).1 = false) :
    (∃ text, (call.read s).1 = .ok (some text)) ∧
    ∀ more broken,
      call.read (s.extend more broken) = ((call.read s).1, (call.read s).2.extend more broken) := by
  obtain ⟨ht, he⟩ | ⟨_, hs | hs⟩ := (call.answers_read s).stops
  case inl     => exact ⟨ht, fun more broken => (he more broken).read_eq⟩
  case inr.inl => cases hb.symm.trans hs
  case inr.inr => rw [hs] at h; cases h

theorem Call.read_ends (call : Call) {s : Source} (h : s.broken = false) :
    wantsMore (call.read s).1 = false := by
  rw [call.read_result h]
  rfl

theorem extend_nil {s : Source} (h : s.broken = false) : s.extend [] false = s := by
  rw [extend, List.append_nil, ← h]

section Arrive

variable (s : Source) (lines : List (List UInt8))

-- What has arrived and what is still to arrive make up the same input.
theorem extend_arrive :
    (s.arrive (lines.head?.getD [])).extend lines.tail.flatten false =
      s.extend lines.flatten false := by
  cases lines <;> simp [arrive, extend]

-- How often a reader can still wait: for each line, and for the end of the input.
def arrivals : Nat :=
  lines.length + s.broken.toNat

variable {s} (h : s.broken)
include h

theorem arrivals_arrive : (s.arrive (lines.head?.getD [])).arrivals lines.tail < s.arrivals lines := by
  cases lines
  case nil             => simp [arrivals, arrive, h]
  case cons line lines =>
    have hl := Bool.toNat_le (s.arrive line).broken
    simp only [arrivals, h, List.head?_cons, Option.getD_some, List.tail_cons, List.length_cons,
      Bool.toNat_true]
    omega

theorem broken_arrive {lines : List (List UInt8)} (hl : ∀ line ∈ lines, line ≠ []) :
    (s.arrive (lines.head?.getD [])).broken ∨ lines.tail = [] := by
  cases lines
  case nil             => exact .inr rfl
  case cons line lines => simp [arrive, h, hl line]

end Arrive

end Source

-- A machine later on: more has been written, and the input ends as it did.
structure Machine.Follows (m m' : Machine) : Prop where
  written : m.output.written <+: m'.output.written
  broken  : m'.input.broken = m.input.broken

namespace Machine.Follows

theorem refl (m : Machine) : m.Follows m :=
  ⟨List.prefix_refl _, rfl⟩

theorem trans {m₁ m₂ m₃ : Machine} (h : m₁.Follows m₂) (h' : m₂.Follows m₃) : m₁.Follows m₃ :=
  ⟨h.written.trans h'.written, h'.broken.trans h.broken⟩

end Machine.Follows

-- How an outcome on the input that has arrived compares to the one on more input.
inductive Foretells {α : Type} (more : List UInt8) (broken : Bool) :
    Except Error α × Machine → Except Error α × Machine → Prop
  | settled {r m} :
    (Source.wantsMore r = false) → Foretells more broken (r, m) (r, m.extend more broken)
  | waits {r m o} :
    (Source.wantsMore r) → (m.output.written <+: o.2.output.written) →
    Foretells more broken (r, m) o

namespace Foretells

variable {α : Type} {more : List UInt8} {broken : Bool} {o p : Except Error α × Machine}

theorem eq_extend (h : Foretells more broken o p) (hw : Source.wantsMore o.1 = false) :
    p = (o.1, o.2.extend more broken) := by
  cases h
  case settled    => rfl
  case waits hs _ => cases hs.symm.trans hw

theorem written (h : Foretells more broken o p) : o.2.output.written <+: p.2.output.written := by
  cases h
  case settled    => exact List.prefix_refl _
  case waits _ hw => exact hw

end Foretells

-- A computation that may be run before all input has arrived: it only adds to what is written, and
-- unless it asks for more, it comes to what it would come to with more.
structure Eval.Patient {α : Type} (x : Eval α) : Prop where
  follows   : x.Moves Machine.Follows
  foretells : ∀ m : Machine, m.input.broken → ∀ more broken,
    Foretells more broken (m.exec x) ((m.extend more broken).exec x)
  ends      : ∀ m : Machine, m.input.broken = false → Source.wantsMore (m.exec x).1 = false

namespace Eval.Patient

variable {α β : Type}

-- A computation that does not use the input.
theorem silent {x : Eval α} (h : ∀ env output, ∃ r env' output',
    (∀ input, Machine.exec ⟨env, input, output⟩ x = (r, ⟨env', input, output'⟩)) ∧
    output.written <+: output'.written ∧ Source.wantsMore r = false) : Patient x := by
  constructor
  case follows =>
    intro m
    obtain ⟨r, env, output, he, hw, _⟩ := h m.env m.output
    exact (he m.input).symm ▸ ⟨hw, rfl⟩
  case foretells =>
    intro m _ more broken
    obtain ⟨r, env, output, he, _, hr⟩ := h m.env m.output
    rw [he m.input, Machine.extend, he]
    exact .settled hr
  case ends =>
    intro m _
    obtain ⟨r, env, output, he, _, hr⟩ := h m.env m.output
    rwa [he m.input]

theorem pure (a : α) : Patient (Pure.pure a) :=
  silent fun env output => ⟨.ok a, env, output, fun _ => rfl, List.prefix_refl _, rfl⟩

theorem throw {e : Error} (h : e ≠ Source.brokenError) : Patient (MonadExcept.throw e : Eval α) :=
  silent fun env output =>
    ⟨.error e, env, output, fun _ => rfl, List.prefix_refl _, decide_eq_false h⟩

theorem lookup (name : String) : Patient (Eval.lookup name) := by
  refine silent fun env output => ?_
  let r : Except Error Value := (env.get? name).elim (.error (.unassigned name)) .ok
  have hr : Source.wantsMore r = false := by
    simp only [r]
    cases env.get? name <;> rfl
  have he (input : Source) := Machine.exec_lookup { env, input, output } name
  exact ⟨r, env, output, he, List.prefix_refl _, hr⟩

theorem assign (name : String) (v : Value) : Patient (Eval.assign name v) :=
  silent fun env output => ⟨.ok (), env.set name v, output, fun _ => rfl, List.prefix_refl _, rfl⟩

theorem clear : Patient Eval.clear :=
  silent fun env output => ⟨.ok (), env.clear, output, fun _ => rfl, List.prefix_refl _, rfl⟩

theorem write (text : String) : Patient (Eval.write text) := by
  refine silent fun env output => ?_
  have hr : Source.wantsMore (output.write text).1 = false := by
    obtain h | h := output.write_result text <;> rw [h] <;> rfl
  exact ⟨_, env, (output.write text).2, fun _ => rfl, output.written_write text, hr⟩

theorem readWord : Patient Eval.readWord where
  follows m := ⟨List.prefix_refl _, Source.Call.word.read_broken⟩
  foretells m hb more broken := by
    cases hw : Source.wantsMore m.input.readWord.1
    case true  => exact .waits hw (List.prefix_refl _)
    case false =>
      have hr := (Source.Call.word.read_settles hb hw).right more broken
      have he : (m.extend more broken).exec Eval.readWord =
          ((m.exec Eval.readWord).1, (m.exec Eval.readWord).2.extend more broken) :=
        Prod.ext (congrArg (·.1) hr) (congrArg (fun o => { m with input := o.2 }) hr)
      rw [he]
      exact .settled hw
  ends m hb := Source.Call.word.read_ends hb

-- What is done with the value of a computation adds to what the computation has written.
theorem follows_rest {x : Eval α} {f : α → Eval β} (hf : ∀ a, Patient (f a)) (m : Machine) :
    (m.exec x).2.Follows (m.exec (x >>= f)).2 := by
  match hx : m.exec x with
  | (.error e, m') => exact Machine.exec_bind_of_error hx f ▸ .refl m'
  | (.ok a, m')    => exact Machine.exec_bind_of_ok hx f ▸ (hf a).follows m'

theorem bind {x : Eval α} {f : α → Eval β} (h : Patient x) (hf : ∀ a, Patient (f a)) :
    Patient (x >>= f) := by
  constructor
  case follows => exact fun m => (h.follows m).trans (follows_rest hf m)
  case foretells =>
    intro m hb more broken
    have hm := h.follows m
    have hr := follows_rest (x := x) hf (m.extend more broken)
    have ht := h.foretells m hb more broken
    -- If the first computation waits, the rest has not begun. Otherwise it begins on machines that
    -- differ by what has not arrived.
    generalize hp : (m.extend more broken).exec x = p at ht hr
    generalize ho : m.exec x = o at ht hm
    cases ht
    case settled r m' hs =>
      cases r
      case error e =>
        rw [Machine.exec_bind_of_error ho, Machine.exec_bind_of_error hp]
        exact .settled hs
      case ok a =>
        rw [Machine.exec_bind_of_ok ho, Machine.exec_bind_of_ok hp]
        exact (hf a).foretells m' (hm.broken.trans hb) more broken
    case waits r m' hs hw =>
      cases r
      case ok      => cases hs
      case error e =>
        rw [Machine.exec_bind_of_error ho]
        exact .waits hs (hw.trans hr.written)
  case ends =>
    intro m hb
    have hm := h.follows m
    have he := h.ends m hb
    match hx : m.exec x with
    | (.error e, m') =>
      rw [hx] at he
      rwa [Machine.exec_bind_of_error hx]
    | (.ok a, m') =>
      rw [hx] at hm
      rw [Machine.exec_bind_of_ok hx]
      exact (hf a).ends m' (hm.broken.trans hb)

def law : Law where
  Holds x _ := x.Patient
  pure      := pure
  bind      := bind
  operand h := throw (by rintro rfl; cases h)

theorem respects : (a : Action) → law.Respects a
  | .lookup name => lookup name
  | .assign name => assign name
  | .print       => write
  | .input       => Law.respects_input (L := law) readWord (throw (by decide))

end Eval.Patient

theorem Operator.Refuses.ne_brokenError {op : Operator} {ts : List Tree} {e : Error}
    (h : op.Refuses ts e) : e ≠ Source.brokenError := by
  rintro rfl
  cases h

theorem Tree.patient_eval (t : Tree) : t.eval.Patient :=
  Law.holds_eval (L := Eval.Patient.law) t (fun a _ => Eval.Patient.respects a)
    (fun _ _ _ h => .throw h.ne_brokenError)

namespace Session

section Conclude

variable {o p : Except Error Value × Machine}

theorem wantsMore_conclude : Source.wantsMore (conclude o).1 = Source.wantsMore o.1 := by
  obtain ⟨_ | _, _⟩ := o <;> rfl

theorem output_conclude : (conclude o).2.output = o.2.output := by
  obtain ⟨_ | _, _⟩ := o <;> rfl

theorem input_conclude : (conclude o).2.input = o.2.input := by
  obtain ⟨_ | _, _⟩ := o <;> rfl

theorem foretells_conclude {more : List UInt8} {broken : Bool} (h : Foretells more broken o p) :
    Foretells more broken (conclude o) (conclude p) := by
  cases h
  case settled r m hs  => cases r <;> exact .settled hs
  case waits r m hs hw =>
    rw [← output_conclude (o := p)] at hw
    cases r
    case ok    => cases hs
    case error => exact .waits hs hw

end Conclude

-- Forgetting the variables after a failure makes no difference to the streams.
theorem patient_run (source : String) : (run source).Patient := by
  by_cases ht : tokenize source = []
  case pos =>
    exact .silent fun env output =>
      ⟨_, env, output, fun _ => exec_run_of_blank ht _, List.prefix_refl _, rfl⟩
  case neg =>
    cases hp : parse (tokenize source)
    case error e =>
      have he : e ≠ Source.brokenError := by
        rintro rfl
        cases stage_of_parse hp
      exact .silent fun env output => ⟨_, .empty, output, fun _ => exec_run_of_error hp ht _,
        List.prefix_refl _, decide_eq_false he⟩
    case ok t =>
      have hx := exec_run_of_parse hp
      have ⟨hf, hw, he⟩ := t.patient_eval
      constructor
      case follows =>
        intro m
        rw [hx]
        exact ⟨output_conclude ▸ (hf m).written, input_conclude ▸ (hf m).broken⟩
      case foretells =>
        intro m hb more broken
        rw [hx, hx]
        exact foretells_conclude (hw m hb more broken)
      case ends =>
        intro m hb
        rw [hx, wantsMore_conclude]
        exact he m hb

theorem patient_line (text : String) : (line text).Patient := by
  rw [line]
  split
  case h_4 => exact .bind .clear fun _ => .pure _
  case h_5 => exact .bind (patient_run _) fun _ => .pure _
  all_goals exact .pure _

end Session
end Polish
