import Polish.Console
import Polish.Proofs.Consumption
import Polish.Proofs.Failure
import Polish.Proofs.Truncation

namespace Polish

open Text

theorem Machine.Extends.output_eq {m m' : Machine} (h : m.Extends m') :
    ∃ written, m'.output = { written := m.output.written ++ written } := by
  obtain ⟨written, hw⟩ := h.written
  refine ⟨written, ?_⟩
  calc
    m'.output
    _ = ⟨m'.output.written, m'.output.room⟩ := rfl
    _ = _ := by rw [h.unlimited, hw]

namespace Session

theorem hears_run (source : String) : (run source).Hears := by
  by_cases ht : tokenize source = []
  case pos => exact .silent fun env output => ⟨_, env, output, fun _ => exec_run_of_blank ht _⟩
  case neg =>
    cases hp : parse (tokenize source)
    case error =>
      exact .silent fun env output => ⟨_, .empty, output, fun _ => exec_run_of_error hp ht _⟩
    case ok t =>
      intro m hb
      obtain ⟨n, hn⟩ := t.hears_eval m hb
      refine ⟨n, fun s hs he => ?_⟩
      rw [exec_run_of_parse hp, exec_run_of_parse hp, hn s hs he]
      rcases m.exec t.eval with ⟨_ | _, _⟩ <;> rfl

theorem hears_line (text : String) : (line text).Hears := by
  rw [line]
  split
  case h_4 => exact .silent fun _ output => ⟨_, .empty, output, fun _ => rfl⟩
  case h_5 =>
    refine .bind (hears_run _) fun v => ?_
    exact .silent fun env output => ⟨_, env, output, fun _ => rfl⟩
  all_goals exact .silent fun env output => ⟨_, env, output, fun _ => rfl⟩

theorem extends_run {m : Machine} (h : m.output.room = none) (source : String) :
    m.Extends (m.exec (run source)).2 := by
  have hr := runs m source
  generalize m.exec (run source) = o at hr ⊢
  cases hr
  case blank   => exact ⟨h, List.prefix_refl _⟩
  case refused => exact ⟨h, List.prefix_refl _⟩
  case fails t _ _ _ he =>
    have hg := (Truncation.truncates_eval 0 t).grows m h
    rw [he] at hg
    exact ⟨hg.unlimited, hg.written⟩
  case succeeds t _ _ _ he =>
    have hg := (Truncation.truncates_eval 0 t).grows m h
    rwa [he] at hg

theorem extends_line {m : Machine} (h : m.output.room = none) (text : String) :
    m.Extends (m.exec (line text)).2 := by
  rw [line]
  split
  case h_5 =>
    have he := extends_run h (trim text)
    rw [Machine.exec_bind]
    generalize m.exec (run (trim text)) = o at he ⊢
    obtain ⟨_ | _, _⟩ := o <;> exact he
  all_goals exact ⟨h, List.prefix_refl _⟩

theorem trim_of_quit {m : Machine} {text : String} (h : (m.exec (line text)).1 = .ok .quit) :
    trim text = ":quit" := by
  rw [line] at h
  split at h
  case h_2 ht => exact ht
  case h_5    =>
    rw [Machine.exec_bind] at h
    split at h <;> cases h
  all_goals cases h

end Session

-- The number of lines, counting the last one if it is not empty, even if nothing ends it.
def lineCount (bytes : List UInt8) : Nat :=
  bytes.count lineFeed + if bytes.getLast?.any (· != lineFeed) then 1 else 0

theorem lineCount_single (b : UInt8) : lineCount [b] = 1 := by
  cases hb : b == lineFeed <;> simp_all [lineCount, bne]

theorem lineCount_cons {bytes : List UInt8} (h : bytes ≠ []) (b : UInt8) :
    lineCount (b :: bytes) = lineCount bytes + if b == lineFeed then 1 else 0 := by
  obtain ⟨c, cs, rfl⟩ := List.exists_cons_of_ne_nil h
  rw [lineCount, lineCount, List.getLast?_cons_cons, List.count_cons]
  omega

theorem lineCount_le_cons (b : UInt8) (bytes : List UInt8) :
    lineCount bytes ≤ lineCount (b :: bytes) := by
  by_cases h : bytes = []
  case pos => exact h ▸ Nat.zero_le _
  case neg => exact lineCount_cons h b ▸ Nat.le_add_right ..

theorem lineCount_suffix {bytes rest : List UInt8} (h : rest <:+ bytes) :
    lineCount rest ≤ lineCount bytes := by
  obtain ⟨taken, rfl⟩ := h
  induction taken
  case nil             => exact Nat.le_refl _
  case cons b taken hi => exact Nat.le_trans hi (lineCount_le_cons ..)

theorem lineCount_le_length (bytes : List UInt8) : lineCount bytes ≤ bytes.length := by
  induction bytes
  case nil             => exact Nat.le_refl 0
  case cons b bytes hi =>
    by_cases h : bytes = []
    case pos => rw [h, lineCount_single]; exact Nat.le_refl 1
    case neg =>
      rw [lineCount_cons h, List.length_cons]
      split <;> omega

theorem lineCount_dropLine {bytes : List UInt8} (h : bytes ≠ []) :
    lineCount ((bytes.dropWhile (· != lineFeed)).drop 1) < lineCount bytes := by
  induction bytes
  case nil             => contradiction
  case cons b bytes hi =>
    by_cases hn : bytes = []
    case pos =>
      have hd : (([b].dropWhile (· != lineFeed)).drop 1) = [] := by
        rw [List.dropWhile_cons]
        split <;> rfl
      rw [hn, hd, lineCount_single]
      exact Nat.one_pos
    case neg =>
      rw [lineCount_cons hn, List.dropWhile_cons]
      by_cases hb : b == lineFeed
      case pos => simp [hb, bne]
      case neg => simpa [hb, bne] using hi hn

theorem Source.bytes_readLine (s : Source) :
    s.readLine.2.bytes = (s.bytes.dropWhile (· != lineFeed)).drop 1 := by
  rw [readLine]
  split
  case h_1 hd => rw [hd]; rfl
  case h_2 hd => rw [hd]; split <;> rfl

namespace Console

open Source.Call (words)

-- What a turn takes from the input besides a line, and what it writes after the prompt.
structure Turn where
  words   : Nat
  written : List UInt8

def Turn.calls (t : Turn) : List Source.Call :=
  .line :: Source.Call.words t.words

-- A turn prompts, takes a line and then words, and writes. Of the input, nothing but what it is
-- handed makes a difference to it.
structure Takes (c : Console) (t : Turn) (c' : Console) (goesOn : Bool) : Prop where
  turn   : c.turn = (c', goesOn)
  input  : c'.machine.input = c.machine.input.after t.calls
  output : c'.machine.output =
    { written := c.machine.output.written ++ Utf8.encode prompt ++ t.written }
  heard  : ∀ s : Source, s.broken = false → s.handed t.calls = c.machine.input.handed t.calls →
    { c with machine.input := s }.turn = ({ c' with machine.input := s.after t.calls }, goesOn)

-- The loop goes on from turn to turn, until it is told to quit or there is no input left.
inductive Ends : Console → List Turn → Console → Prop
  | quits {c t c' text} :
    (c.machine.input.readLine.1 = .ok (some text)) → (trim text = ":quit") →
    (Takes c t c' false) → Ends c [t] c'
  | exhausts {c t c'} :
    (c.machine.input.bytes = []) → (Takes c t c' false) → Ends c [t] c'
  | goesOn {c t c' ts c''} :
    (Takes c t c' true) → (Ends c' ts c'') → Ends c (t :: ts) c''

-- The input can be read, and the output takes everything.
structure Ready (c : Console) : Prop where
  readable  : c.machine.input.broken = false
  unlimited : c.machine.output.room = none

theorem output_say {c : Console} (h : c.machine.output.room = none) (text : String) :
    (c.say text).machine.output = ⟨c.machine.output.written ++ Utf8.encode text, none⟩ := by
  simp [say, Sink.write, h]

theorem extends_say {c : Console} (h : c.machine.output.room = none) (text : String) :
    c.machine.Extends (c.say text).machine := by
  have ho := output_say h text
  exact ⟨by rw [ho], by rw [ho]; exact List.prefix_append ..⟩

-- The console once a line has come to something.
def respond (c : Console) (o : Except Error Session.Outcome × Machine) : Console × Bool :=
  (({ c with machine := o.2 }.say (reply o.1).output).complain (reply o.1).errors,
    (reply o.1).goesOn)

theorem extends_respond {c : Console} {m : Machine} {o : Except Error Session.Outcome × Machine}
    (h : m.Extends o.2) : m.Extends (c.respond o).1.machine :=
  h.trans (extends_say (c := { c with machine := o.2 }) h.unlimited (reply o.1).output)

theorem eq_quit_of_respond {c : Console} {o : Except Error Session.Outcome × Machine}
    (h : (c.respond o).2 = false) : o.1 = .ok .quit := by
  obtain ⟨r, m⟩ := o
  change (reply r).goesOn = false at h
  unfold reply at h
  split at h
  case h_2 => rfl
  case h_6 => split at h <;> cases h
  all_goals cases h

-- The console that has asked for a line and taken it.
def prompted (c : Console) : Console :=
  { c.say prompt with machine.input := c.machine.input.readLine.2 }

-- The line that a console is about to read.
def upcoming (c : Console) : List UInt8 :=
  Source.Call.line.octets c.machine.input

theorem upcoming_eq_nil_iff {c : Console} : c.upcoming = [] ↔ c.machine.input.bytes = [] :=
  Source.Call.octets_line_eq_nil_iff

theorem readLine_of_end {c : Console} (h : c.machine.input.broken = false) (hn : c.upcoming = []) :
    c.machine.input.readLine.1 = .ok none :=
  (Source.Call.line.read_result h).trans (by rw [← upcoming, hn]; rfl)

theorem readLine_of_line {c : Console} (h : c.machine.input.broken = false) (hn : c.upcoming ≠ []) :
    c.machine.input.readLine.1 = .ok (some (Utf8.decodeLossy c.upcoming)) :=
  (Source.Call.line.read_result h).trans (by rw [← upcoming]; simp [hn])

theorem turn_of_error {c : Console} {e : Error} (h : c.machine.input.readLine.1 = .error e) :
    c.turn = (c.prompted.complain ("Error reading input: " ++ e.detail ++ ".\n"), true) := by
  have hr : (c.say prompt).machine.input.readLine = (.error e, c.machine.input.readLine.2) :=
    Prod.ext h rfl
  rw [turn, hr]
  rfl

theorem turn_of_end {c : Console} (h : c.machine.input.readLine.1 = .ok none) :
    c.turn = (c.prompted.say farewell, false) := by
  have hr : (c.say prompt).machine.input.readLine = (.ok none, c.machine.input.readLine.2) :=
    Prod.ext h rfl
  rw [turn, hr]
  rfl

theorem turn_of_line {c : Console} {text : String}
    (h : c.machine.input.readLine.1 = .ok (some text)) :
    c.turn = c.prompted.respond (c.prompted.machine.exec (Session.line text)) := by
  have hr : (c.say prompt).machine.input.readLine = (.ok (some text), c.machine.input.readLine.2) :=
    Prod.ext h rfl
  rw [turn, hr]
  simp only [respond, prompted]

theorem output_prompted {c : Console} (h : c.machine.output.room = none) :
    c.prompted.machine.output = ⟨c.machine.output.written ++ Utf8.encode prompt, none⟩ :=
  output_say h prompt

section Ready

variable {c : Console} (h : c.Ready)
include h

-- At the end of the input the loop takes its leave.
theorem takes_end (hn : c.upcoming = []) :
    Takes c ⟨0, Utf8.encode farewell⟩ (c.prompted.say farewell) false := by
  have hp := output_prompted h.unlimited
  constructor
  case turn   => exact turn_of_end (readLine_of_end h.readable hn)
  case input  => rfl
  case output => rw [output_say (by rw [hp]), hp]
  case heard  =>
    intro s hs he
    have hu : { c with machine.input := s }.upcoming = [] := (List.cons.inj he).left.trans hn
    exact turn_of_end (readLine_of_end hs hu)

-- Whatever comes of a line, only the command to quit makes a turn the last.
theorem exists_takes_line (hn : c.upcoming ≠ []) :
    ∃ t c' goesOn, Takes c t c' goesOn ∧
      (goesOn = false → trim (Utf8.decodeLossy c.upcoming) = ":quit") := by
  let text := Utf8.decodeLossy c.upcoming
  have hp := output_prompted h.unlimited
  have hb : c.prompted.machine.input.broken = false :=
    (Source.Call.line.read_broken).trans h.readable
  have he := Session.extends_line (m := c.prompted.machine) (by rw [hp]) text
  obtain ⟨n, hi⟩ := Session.hears_line text c.prompted.machine hb
  obtain ⟨written, hw⟩ := (extends_respond (c := c.prompted) he).output_eq
  rw [hp] at hw
  generalize ho : c.prompted.machine.exec (Session.line text) = o at hi hw
  refine ⟨⟨n, written⟩, (c.prompted.respond o).1, (c.prompted.respond o).2, ?_, fun hq => ?_⟩
  case refine_2 => exact Session.trim_of_quit (ho ▸ eq_quit_of_respond hq)
  constructor
  case turn   => rw [turn_of_line (readLine_of_line h.readable hn), ho]
  case input  => exact congrArg (·.2.input) (ho.symm.trans (hi _ hb rfl))
  case output => exact hw
  case heard  =>
    intro s hs hh
    obtain ⟨hl, hr⟩ := List.cons.inj hh
    have hu : { c with machine.input := s }.upcoming = c.upcoming := hl
    have hx := hi s.readLine.2 ((Source.Call.line.read_broken).trans hs) hr
    rw [turn_of_line (readLine_of_line hs (hu ▸ hn)), hu]
    exact congrArg { c with machine.input := s }.prompted.respond hx

end Ready

namespace Takes

variable {c c' : Console} {t : Turn} {goesOn : Bool}

theorem ready (ht : Takes c t c' goesOn) (h : c.Ready) : c'.Ready where
  readable  := by rw [ht.input, Source.after_broken, h.readable]
  unlimited := by rw [ht.output]

-- Evaluating a line can only take more of the input than the line.
theorem lineCount_lt (ht : Takes c t c' goesOn) (hn : c.upcoming ≠ []) :
    lineCount c'.machine.input.bytes < lineCount c.machine.input.bytes := by
  have hs : c'.machine.input.bytes <:+ c.machine.input.readLine.2.bytes := by
    rw [ht.input]
    exact Source.after_bytes_suffix (s := c.machine.input.readLine.2) (words t.words)
  refine Nat.lt_of_le_of_lt (lineCount_suffix hs) ?_
  rw [Source.bytes_readLine]
  exact lineCount_dropLine (mt upcoming_eq_nil_iff.mpr hn)

end Takes

-- The measure is the number of lines that are left.
theorem exists_ends {c : Console} (h : c.Ready) :
    ∃ ts c', Ends c ts c' ∧ ts.length ≤ lineCount c.machine.input.bytes + 1 := by
  by_cases hn : c.upcoming = []
  case pos =>
    exact ⟨_, _, .exhausts (upcoming_eq_nil_iff.mp hn) (takes_end h hn), Nat.le_add_left ..⟩
  case neg =>
    obtain ⟨t, c', goesOn, ht, hq⟩ := exists_takes_line h hn
    have hd := ht.lineCount_lt hn
    cases goesOn
    case false =>
      exact ⟨_, _, .quits (readLine_of_line h.readable hn) (hq rfl) ht, Nat.le_add_left ..⟩
    case true =>
      obtain ⟨ts, c'', he, hl⟩ := exists_ends (ht.ready h)
      exact ⟨t :: ts, c'', .goesOn ht he, by rw [List.length_cons]; omega⟩
termination_by lineCount c.machine.input.bytes

namespace Ends

variable {c c' : Console} {ts : List Turn}

-- More turns than the loop takes make no difference.
theorem turns_eq {n : Nat} (h : Ends c ts c') (hn : ts.length ≤ n) : c.turns n = c' := by
  induction h generalizing n
  case quits ht | exhausts ht =>
    obtain ⟨n, rfl⟩ := Nat.exists_eq_add_of_le' hn
    simp [turns, ht.turn]
  case goesOn ht _ hi =>
    obtain ⟨n, rfl⟩ := Nat.exists_eq_add_of_le' (Nat.le_trans (Nat.le_add_left ..) hn)
    simpa [turns, ht.turn] using hi (Nat.le_of_succ_le_succ hn)

theorem input_eq (h : Ends c ts c') :
    c'.machine.input = c.machine.input.after (ts.flatMap Turn.calls) := by
  induction h
  case quits ht | exhausts ht => simpa using ht.input
  case goesOn ht _ hi         => rw [hi, ht.input, List.flatMap_cons, Source.after_append]

theorem written_eq (h : Ends c ts c') :
    c'.machine.output.written =
      c.machine.output.written ++ ts.flatMap (Utf8.encode prompt ++ ·.written) := by
  induction h
  case quits ht | exhausts ht => simp [ht.output]
  case goesOn ht _ hi         => simp [hi, ht.output]

end Ends

-- The console that has greeted its user.
def start (input : List UInt8) : Console :=
  ({ machine := { input := ⟨input, false⟩ } } : Console).say banner

theorem interact_of_ends {input : List UInt8} {ts : List Turn} {c : Console}
    (h : Ends (start input) ts c) (hn : ts.length ≤ lineCount input + 1) :
    interact input = { output := c.machine.output.written, errors := c.errors } := by
  have hl : ts.length ≤ input.length + 1 :=
    Nat.le_trans hn (Nat.succ_le_succ (lineCount_le_length input))
  exact congrArg (fun c : Console => Report.mk c.machine.output.written c.errors 0) (h.turns_eq hl)

-- Every turn that is not the last takes a line, and evaluating the line only takes more.
theorem interact_ends (input : List UInt8) :
    ∃ ts c, Ends (start input) ts c ∧ ts.length ≤ lineCount input + 1 ∧
      interact input = { output := c.machine.output.written, errors := c.errors, status := 0 } ∧
      c.machine.output.written =
        Utf8.encode banner ++ ts.flatMap (Utf8.encode prompt ++ ·.written) ∧
      ((Source.handed ⟨input, false⟩ (ts.flatMap Turn.calls)).flatten ++
        c.machine.input.bytes).Sublist input := by
  obtain ⟨ts, c, he, hl⟩ := exists_ends (c := start input) ⟨rfl, rfl⟩
  refine ⟨ts, c, he, hl, interact_of_ends he hl, he.written_eq, ?_⟩
  rw [he.input_eq]
  exact Source.handed_sublist _

end Console
end Polish
