import Polish.Proofs.Interaction
import Polish.Proofs.Patience

namespace Polish

-- What is left to be shown can be shown in two parts.
theorem drop_append_drop {α : Type} {xs ys : List α} {n : Nat} (h : xs <+: ys)
    (hn : n ≤ xs.length) : xs.drop n ++ ys.drop xs.length = ys.drop n := by
  obtain ⟨zs, rfl⟩ := h
  rw [List.drop_left, List.drop_append_of_le_length hn]

namespace Eval

variable {α : Type} {x : Eval α}

-- A computation as its input arrives, first some lines and then no more. It is run on what has
-- arrived, and once more each time that it waits. Of the output, so many octets have been shown; the
-- others are shown from here on, up to the result.
inductive Arrives (x : Eval α) :
    Machine → Nat → List (List UInt8) → List UInt8 → Except Error α → Prop
  | waits {m shown lines out r} :
    (Source.wantsMore (m.exec x).1) →
    (Arrives x (m.arrive (lines.head?.getD [])) (m.exec x).2.output.written.length lines.tail out r) →
    Arrives x m shown lines ((m.exec x).2.output.written.drop shown ++ out) r
  | ends {m shown lines} :
    (Source.wantsMore (m.exec x).1 = false) →
    Arrives x m shown lines ((m.exec x).2.output.written.drop shown) (m.exec x).1

theorem Arrives.unique {m : Machine} {shown : Nat} {lines : List (List UInt8)}
    {out out' : List UInt8} {r r' : Except Error α} (h : Arrives x m shown lines out r)
    (h' : Arrives x m shown lines out' r') : out = out' ∧ r = r' := by
  induction h generalizing out' r'
  case waits hw _ hi =>
    cases h'
    case waits h' => obtain ⟨rfl, rfl⟩ := hi h'; exact ⟨rfl, rfl⟩
    case ends hw' => cases hw.symm.trans hw'
  case ends hw =>
    cases h'
    case waits hw' _ => cases hw'.symm.trans hw
    case ends        => exact ⟨rfl, rfl⟩

-- Waiting leaves the whole input as it is, and has one line less to wait for.
theorem Patient.arrives (h : x.Patient) (m : Machine) (shown : Nat) (lines : List (List UInt8))
    (hl : ∀ line ∈ lines, line ≠ []) (ho : m.input.broken ∨ lines = [])
    (hs : shown ≤ (m.exec x).2.output.written.length) :
    let o := (m.extend lines.flatten false).exec x
    Arrives x m shown lines (o.2.output.written.drop shown) o.1 := by
  intro o
  cases hw : Source.wantsMore (m.exec x).1
  case true =>
    have hb : m.input.broken := by
      by_contra hb
      cases hw.symm.trans (h.ends m (Bool.eq_false_iff.mpr hb))
    let next := m.arrive (lines.head?.getD [])
    have hx : next.extend lines.tail.flatten false = m.extend lines.flatten false :=
      congrArg (fun s => { m with input := s }) (m.input.extend_arrive lines)
    have hn := (h.foretells m hb (lines.head?.getD []) (next.input.broken)).written.length_le
    have hp := (h.foretells m hb lines.flatten false).written
    have ha := Source.arrivals_arrive lines hb
    have hi := h.arrives next _ lines.tail (fun line hm => hl line (List.mem_of_mem_tail hm))
      (Source.broken_arrive hb hl) hn
    rw [hx] at hi
    exact drop_append_drop hp hs ▸ .waits hw hi
  case false =>
    cases hb : m.input.broken
    case true =>
      have he := (h.foretells m hb lines.flatten false).eq_extend hw
      simp only [o, he]
      exact .ends hw
    case false =>
      obtain rfl : lines = [] := by simpa [hb] using ho
      have hm : m.extend [] false = m :=
        congrArg (fun s => { m with input := s }) (Source.extend_nil hb)
      simp only [o, List.flatten_nil, hm]
      exact .ends hw
termination_by m.input.arrivals lines

end Eval

-- However the input of a script is cut into lines, it shows the same and comes to the same.
theorem Console.runScript_of_arrives {name source : String} {content : Script.Content}
    (h : Script.load name content = .ok source) {lines : List (List UInt8)}
    (hl : ∀ line ∈ lines, line ≠ []) {out : List UInt8} {r : Except Error (Option Value)}
    (ha : (Session.run source).Arrives { input := ⟨[], true⟩ } 0 lines out r) :
    runScript name content lines.flatten = .ofRun out r := by
  have hx := (Session.patient_run source).arrives { input := ⟨[], true⟩ } 0 lines hl (.inl rfl)
    (Nat.zero_le _)
  obtain ⟨rfl, rfl⟩ := ha.unique hx
  rw [runScript, h]
  rfl

namespace Console

variable {c : Console}

def extend (more : List UInt8) (broken : Bool) (c : Console) : Console :=
  { c with machine := c.machine.extend more broken }

theorem waits_of_error {e : Error} (h : c.machine.input.readLine.1 = .error e) : c.waits := by
  have hr : c.machine.input.readLine = (.error e, c.machine.input.readLine.2) := Prod.ext h rfl
  rw [waits, hr]

theorem waits_of_line {text : String} (h : c.machine.input.readLine.1 = .ok (some text)) :
    c.waits = Source.wantsMore (c.prompted.machine.exec (Session.line text)).1 := by
  have hr : c.machine.input.readLine = (.ok (some text), c.machine.input.readLine.2) :=
    Prod.ext h rfl
  rw [waits, hr]
  rfl

theorem written_say (c : Console) (text : String) :
    c.machine.output.written <+: (c.say text).machine.output.written :=
  c.machine.output.written_write text

section Respond

variable (c : Console) (o : Except Error Session.Outcome × Machine)

theorem follows_respond : o.2.Follows (c.respond o).1.machine :=
  ⟨written_say { c with machine := o.2 } _, rfl⟩

theorem errors_respond : (c.respond o).1.errors = c.errors ++ (reply o.1).errors :=
  rfl

-- What a line comes to takes the place of the machine.
theorem respond_extend (more : List UInt8) (broken : Bool) :
    (c.extend more broken).respond o = c.respond o :=
  rfl

end Respond

-- A failure is complained of, and nothing is said about it.
theorem output_respond_of_error (c : Console) (e : Error) (m : Machine) :
    (c.respond (.error e, m)).1.machine.output = m.output := by
  change (m.output.write "").2 = m.output
  rw [Sink.write_empty]

-- Every turn begins with the prompt.
theorem follows_turn (c : Console) : (c.say prompt).machine.Follows c.turn.1.machine := by
  have hp : (c.say prompt).machine.Follows c.prompted.machine :=
    ⟨List.prefix_refl _, Source.Call.line.read_broken⟩
  match hr : c.machine.input.readLine.1 with
  | .error _        => exact turn_of_error hr ▸ hp
  | .ok none        => exact turn_of_end hr ▸ hp.trans ⟨written_say c.prompted farewell, rfl⟩
  | .ok (some text) =>
    have hf := (Session.patient_line text).follows c.prompted.machine
    rw [turn_of_line hr]
    exact (hp.trans hf).trans (follows_respond ..)

theorem exists_errors_turn (c : Console) : ∃ text, c.turn.1.errors = c.errors ++ text := by
  match hr : c.machine.input.readLine.1 with
  | .error _        => exact ⟨_, congrArg (·.1.errors) (turn_of_error hr)⟩
  | .ok none        => exact ⟨"", by rw [turn_of_end hr, String.append_empty]; rfl⟩
  | .ok (some text) => exact ⟨_, by rw [turn_of_line hr, errors_respond]; rfl⟩

section Open

variable (hb : c.machine.input.broken) (more : List UInt8) (broken : Bool)
include hb

-- A line that can be read is read whatever arrives, and the turn goes on with it.
theorem foretells_line (h : Source.wantsMore c.machine.input.readLine.1 = false) :
    ∃ o p, c.turn = c.prompted.respond o ∧ c.waits = Source.wantsMore o.1 ∧
      (c.extend more broken).turn = c.prompted.respond p ∧ Foretells more broken o p := by
  obtain ⟨⟨text, ht⟩, hr⟩ := Source.Call.line.read_settles hb h
  have hr := hr more broken
  have hx : (c.extend more broken).machine.input.readLine.1 = .ok (some text) :=
    (congrArg (·.1) hr).trans ht
  have hp : (c.extend more broken).prompted = c.prompted.extend more broken :=
    congrArg (fun o => { c.say prompt with machine.input := o.2 }) hr
  have hf := (Session.patient_line text).foretells c.prompted.machine
    (Source.Call.line.read_broken.trans hb) more broken
  have he := turn_of_line hx
  rw [hp, respond_extend] at he
  exact ⟨_, _, turn_of_line ht, waits_of_line ht, he, hf⟩

-- A turn that does not wait is the same whatever arrives.
theorem turn_of_not_waits (hw : c.waits = false) :
    (c.extend more broken).turn = (c.turn.1.extend more broken, c.turn.2) := by
  have hm : Source.wantsMore c.machine.input.readLine.1 = false := by
    cases hr : c.machine.input.readLine.1
    case error => cases (waits_of_error hr).symm.trans hw
    case ok    => rfl
  obtain ⟨o, p, ht, hs, hx, hf⟩ := foretells_line hb more broken hm
  rw [hx, ht, hf.eq_extend (hs.symm.trans hw)]
  rfl

-- What a turn has written when it waits, it writes in any case.
theorem written_of_waits (hw : c.waits) :
    c.turn.1.machine.output.written <+: (c.extend more broken).turn.1.machine.output.written := by
  cases hr : c.machine.input.readLine.1
  case error =>
    rw [turn_of_error hr]
    exact (c.extend more broken).follows_turn.written
  case ok =>
    obtain ⟨⟨r, m⟩, p, ht, hs, hx, hf⟩ := foretells_line hb more broken (by rw [hr]; rfl)
    rw [hs] at hw
    cases r
    case ok    => cases hw
    case error =>
      rw [ht, hx, output_respond_of_error]
      exact hf.written.trans (follows_respond ..).written

end Open

-- There is nothing to wait for at the end of the input.
theorem not_waits_of_readable (h : c.machine.input.broken = false) : c.waits = false := by
  match hr : c.machine.input.readLine with
  | (.error e, _)     =>
    have hw := Source.Call.line.read_result h
    cases (congrArg (·.1) hr).symm.trans hw
  | (.ok none, _)     => rw [waits, hr]
  | (.ok (some _), _) =>
    rw [waits_of_line (congrArg (·.1) hr)]
    exact (Session.patient_line _).ends _ (Source.Call.line.read_broken.trans h)

theorem turn_extend (more : List UInt8) (h : c.machine.input.broken ∨ more = [])
    (hw : c.waits = false) : (c.extend more false).turn = (c.turn.1.extend more false, c.turn.2) := by
  cases hb : c.machine.input.broken
  case true  => exact turn_of_not_waits hb more false hw
  case false =>
    have he {d : Console} (hd : d.machine.input.broken = false) : d.extend [] false = d :=
      congrArg (fun s => { d with machine.input := s }) (Source.extend_nil hd)
    obtain rfl : more = [] := by simpa [hb] using h
    rw [he hb, he (c.follows_turn.broken.trans hb)]

theorem newErrors_eq {next : Console} {text : String} (h : next.errors = c.errors ++ text) :
    c.newErrors next = text := by
  simp [newErrors, h, ← String.length_toList]

theorem newErrors_trans {d w : Console} (h : ∃ text, d.errors = c.errors ++ text)
    (h' : ∃ text, w.errors = d.errors ++ text) :
    c.newErrors d ++ d.newErrors w = c.newErrors w := by
  obtain ⟨text, hd⟩ := h
  obtain ⟨rest, hr⟩ := h'
  rw [newErrors_eq hd, newErrors_eq hr, newErrors_eq (hr.trans (by rw [hd, String.append_assoc]))]

-- The interactive loop as its input arrives, first some lines and then no more: what it shows from
-- a round on, and what it complains of. A turn that waits is taken again with one more line.
inductive Serves : Console → Nat → List (List UInt8) → List UInt8 → String → Prop
  | waits {c shown lines out errors} :
    (c.waits) →
    (Serves (c.arrive (lines.head?.getD [])) c.turn.1.machine.output.written.length lines.tail
      out errors) →
    Serves c shown lines (c.turn.1.machine.output.written.drop shown ++ out) errors
  | goesOn {c c' shown lines out errors} :
    (c.waits = false) → (c.turn = (c', true)) →
    (Serves c' c'.machine.output.written.length lines out errors) →
    Serves c shown lines (c'.machine.output.written.drop shown ++ out) (c.newErrors c' ++ errors)
  | stops {c c' shown lines} :
    (c.waits = false) → (c.turn = (c', false)) →
    Serves c shown lines (c'.machine.output.written.drop shown) (c.newErrors c')

theorem Serves.unique {shown : Nat} {lines : List (List UInt8)} {out out' : List UInt8}
    {errors errors' : String} (h : Serves c shown lines out errors)
    (h' : Serves c shown lines out' errors') : out = out' ∧ errors = errors' := by
  induction h generalizing out' errors'
  case waits hw _ hi =>
    cases h'
    case waits h'       => obtain ⟨rfl, rfl⟩ := hi h'; exact ⟨rfl, rfl⟩
    case goesOn hw' _ _ => cases hw.symm.trans hw'
    case stops hw' _    => cases hw.symm.trans hw'
  case goesOn hw ht _ hi =>
    cases h'
    case waits hw' _   => cases hw'.symm.trans hw
    case goesOn ht' h' =>
      cases ht.symm.trans ht'
      obtain ⟨rfl, rfl⟩ := hi h'
      exact ⟨rfl, rfl⟩
    case stops ht'     => cases ht.symm.trans ht'
  case stops hw ht =>
    cases h'
    case waits hw' _   => cases hw'.symm.trans hw
    case goesOn ht' h' => cases ht.symm.trans ht'
    case stops ht'     => cases ht.symm.trans ht'; exact ⟨rfl, rfl⟩

theorem Takes.exists_errors {c' : Console} {t : Turn} {goesOn : Bool} (h : Takes c t c' goesOn) :
    ∃ text, c'.errors = c.errors ++ text := by
  have he := c.exists_errors_turn
  rwa [h.turn] at he

namespace Ends

variable {w : Console} {ts : List Turn}

theorem exists_errors (h : Ends c ts w) : ∃ text, w.errors = c.errors ++ text := by
  induction h
  case quits ht | exhausts ht => exact ht.exists_errors
  case goesOn ht _ hi         =>
    obtain ⟨text, hx⟩ := ht.exists_errors
    obtain ⟨rest, hr⟩ := hi
    exact ⟨text ++ rest, by rw [hr, hx, String.append_assoc]⟩

theorem written_prefix (h : Ends c ts w) : c.machine.output.written <+: w.machine.output.written :=
  h.written_eq ▸ List.prefix_append ..

-- The first turn is the last, or others follow.
theorem first (h : Ends c ts w) :
    c.turn = (w, false) ∨
    ∃ c' ts', c.turn = (c', true) ∧ Ends c' ts' w ∧ ts'.length < ts.length := by
  cases h
  case quits ht | exhausts ht => exact .inl ht.turn
  case goesOn ht he           => exact .inr ⟨_, _, ht.turn, he, Nat.lt_succ_self _⟩

theorem written_turn (h : Ends c ts w) :
    c.turn.1.machine.output.written <+: w.machine.output.written := by
  obtain ht | ⟨_, _, ht, he, _⟩ := h.first
  case inl => exact ht ▸ List.prefix_refl _
  case inr => exact ht ▸ he.written_prefix

end Ends

-- There are two measures: the turns that are left, and for each of them what there is to wait for.
theorem serves_of_ends (c : Console) (shown : Nat) (lines : List (List UInt8)) {ts : List Turn}
    {w : Console} (he : Ends (c.extend lines.flatten false) ts w) (hl : ∀ line ∈ lines, line ≠ [])
    (ho : c.machine.input.broken ∨ lines = [])
    (hs : shown ≤ c.turn.1.machine.output.written.length) :
    Serves c shown lines (w.machine.output.written.drop shown) (c.newErrors w) := by
  cases hw : c.waits
  case true =>
    have hb : c.machine.input.broken := by
      by_contra hb
      cases hw.symm.trans (not_waits_of_readable (Bool.eq_false_iff.mpr hb))
    let next := c.arrive (lines.head?.getD [])
    have hx : next.extend lines.tail.flatten false = c.extend lines.flatten false :=
      congrArg (fun s => { c with machine.input := s }) (c.machine.input.extend_arrive lines)
    have hn : c.turn.1.machine.output.written.length ≤ next.turn.1.machine.output.written.length :=
      (written_of_waits hb _ _ hw).length_le
    have hp := (written_of_waits hb lines.flatten false hw).trans he.written_turn
    have ha := Source.arrivals_arrive lines hb
    have hi := serves_of_ends next _ lines.tail (hx ▸ he)
      (fun line hm => hl line (List.mem_of_mem_tail hm)) (Source.broken_arrive hb hl) hn
    exact drop_append_drop hp hs ▸ .waits hw hi
  case false =>
    have ht := turn_extend lines.flatten (ho.imp_right (by rintro rfl; rfl)) hw
    obtain hf | ⟨_, ts', hf, he, hd⟩ := he.first
    case inl =>
      obtain ⟨rfl, hq⟩ := Prod.mk.inj (ht.symm.trans hf)
      have hv : Serves c shown lines _ (c.newErrors c.turn.1) := .stops hw (Prod.ext rfl hq)
      exact hv
    case inr =>
      obtain ⟨rfl, hq⟩ := Prod.mk.inj (ht.symm.trans hf)
      have hn := ((written_say _ _).trans c.turn.1.follows_turn.written).length_le
      have hp : c.turn.1.machine.output.written <+: w.machine.output.written := he.written_prefix
      have hi := serves_of_ends c.turn.1 _ lines he hl (c.follows_turn.broken ▸ ho) hn
      rw [← drop_append_drop hp hs, ← newErrors_trans c.exists_errors_turn he.exists_errors]
      exact .goesOn hw (Prod.ext rfl hq) hi
termination_by (ts.length, c.machine.input.arrivals lines)

-- However the input is cut into lines, the loop shows and complains of the same.
theorem serves_opening_iff {lines : List (List UInt8)} (hl : ∀ line ∈ lines, line ≠ [])
    {out : List UInt8} {errors : String} :
    Serves opening 0 lines out errors ↔ interact lines.flatten = { output := out, errors } := by
  obtain ⟨ts, w, he, hn⟩ := exists_ends (c := start lines.flatten) ⟨rfl, rfl⟩
  have hs := serves_of_ends opening 0 lines he hl (.inl rfl) (Nat.zero_le _)
  have hx : opening.newErrors w = w.errors := newErrors_eq String.empty_append.symm
  rw [interact_of_ends he hn, ← hx]
  constructor
  case mp =>
    intro h
    obtain ⟨rfl, rfl⟩ := h.unique hs
    rfl
  case mpr =>
    intro h
    cases h
    exact hs

end Console
end Polish
