import Polish.Proofs.Consumption
import Polish.Proofs.Runs
import Polish.Stream.Buffered

namespace Polish

open Text

-- What comes of a call.
abbrev Answer := Except Error (Option String)

namespace Source.Call

-- How a call may go if these are the octets left to read. A word ends before a space and a line
-- with its line feed. Where there is neither, the end of the source does as well, but not if the
-- source is broken there: then the call fails, and nothing is left.
inductive Answers (broken : Bool) : Call → List UInt8 → Answer → List UInt8 → Prop
  | word {spaces word stop rest} :
    (∀ b ∈ spaces, isSpaceOctet b) → (∀ b ∈ word, !isSpaceOctet b) → (word ≠ []) →
    (isSpaceOctet stop) →
    Answers broken .word (spaces ++ (word ++ stop :: rest))
      (.ok (some (Utf8.decodeLossy word))) (stop :: rest)
  | lastWord {spaces word} :
    (∀ b ∈ spaces, isSpaceOctet b) → (∀ b ∈ word, !isSpaceOctet b) → (word ≠ []) →
    (broken = false) →
    Answers broken .word (spaces ++ word) (.ok (some (Utf8.decodeLossy word))) []
  | noWord {spaces} :
    (∀ b ∈ spaces, isSpaceOctet b) → (broken = false) → Answers broken .word spaces (.ok none) []
  | lostWord {spaces word} :
    (∀ b ∈ spaces, isSpaceOctet b) → (∀ b ∈ word, !isSpaceOctet b) → (broken = true) →
    Answers broken .word (spaces ++ word) (.error brokenError) []
  | line {line rest} :
    (∀ b ∈ line, b != lineFeed) →
    Answers broken .line (line ++ lineFeed :: rest)
      (.ok (some (Utf8.decodeLossy (line ++ [lineFeed])))) rest
  | lastLine {line} :
    (∀ b ∈ line, b != lineFeed) → (line ≠ []) → (broken = false) →
    Answers broken .line line (.ok (some (Utf8.decodeLossy line))) []
  | noLine :
    (broken = false) → Answers broken .line [] (.ok none) []
  | lostLine {line} :
    (∀ b ∈ line, b != lineFeed) → (broken = true) →
    Answers broken .line line (.error brokenError) []

section Reads

variable {broken : Bool} {spaces word line rest : List UInt8}

-- A word starts where the spaces end, and ends before the next one.
theorem read_word (hs : ∀ b ∈ spaces, isSpaceOctet b) (hw : ∀ b ∈ word, !isSpaceOctet b)
    (hr : ∀ b ∈ rest.head?, isSpaceOctet b) (he : word = [] → rest = []) :
    Call.word.read ⟨spaces ++ (word ++ rest), broken⟩ =
      if rest.isEmpty && broken then (.error brokenError, ⟨[], broken⟩)
      else (.ok (if word.isEmpty then none else some (Utf8.decodeLossy word)), ⟨rest, broken⟩) := by
  have hh : ∀ b ∈ (word ++ rest).head?, ¬isSpaceOctet b := by
    cases word
    case nil       => simp [he rfl]
    case cons b bs => simpa using hw b (by simp)
  have hr : ∀ b ∈ rest.head?, ¬(!isSpaceOctet b) := by simpa using hr
  simp only [read, readWord, dropWhile_run hs hh, takeWhile_run hw hr, dropWhile_run hw hr]

theorem read_word_end (hs : ∀ b ∈ spaces, isSpaceOctet b) (hw : ∀ b ∈ word, !isSpaceOctet b) :
    Call.word.read ⟨spaces ++ word, broken⟩ =
      if broken then (.error brokenError, ⟨[], broken⟩)
      else (.ok (if word.isEmpty then none else some (Utf8.decodeLossy word)), ⟨[], broken⟩) := by
  have h : Call.word.read ⟨spaces ++ (word ++ []), broken⟩ = _ :=
    read_word hs hw nofun fun _ => rfl
  simpa using h

theorem read_line_stop (h : ∀ b ∈ line, b != lineFeed) :
    Call.line.read ⟨line ++ lineFeed :: rest, broken⟩ =
      (.ok (some (Utf8.decodeLossy (line ++ [lineFeed]))), ⟨rest, broken⟩) := by
  have hr : ∀ b ∈ (lineFeed :: rest).head?, ¬(b != lineFeed) := by simp
  simp only [read, readLine, takeWhile_run h hr, dropWhile_run h hr]

theorem read_line_end (h : ∀ b ∈ line, b != lineFeed) :
    Call.line.read ⟨line, broken⟩ =
      if broken then (.error brokenError, ⟨[], broken⟩)
      else (.ok (if line.isEmpty then none else some (Utf8.decodeLossy line)), ⟨[], broken⟩) := by
  have ht : (line ++ []).takeWhile (· != lineFeed) = line := takeWhile_run h nofun
  have hd : (line ++ []).dropWhile (· != lineFeed) = [] := dropWhile_run h nofun
  rw [List.append_nil] at ht hd
  simp only [read, readLine, ht, hd]

end Reads

namespace Answers

variable {broken : Bool} {call : Call} {bytes rest spaces : List UInt8} {answer : Answer}

-- A call goes in only one of these ways.
theorem read_eq (h : Answers broken call bytes answer rest) :
    call.read ⟨bytes, broken⟩ = (answer, ⟨rest, broken⟩) := by
  cases h
  case word hs hw hn hb =>
    rw [read_word hs hw (by simpa using hb) (absurd · hn)]
    simp [hn]
  case lastWord hs hw hn hb =>
    rw [read_word_end hs hw]
    simp [hn, hb]
  case noWord hb hs =>
    rw [← List.append_nil bytes, read_word_end hs (by simp)]
    simp [hb]
  case lostWord hs hw hb =>
    rw [read_word_end hs hw]
    simp [hb]
  case line h           => exact read_line_stop h
  case lastLine hb h hn => rw [read_line_end h]; simp [hn, hb]
  case noLine hb        => rw [read_line_end (by simp)]; simp [hb]
  case lostLine hb h    => rw [read_line_end h]; simp [hb]

theorem unique {answer' : Answer} {rest' : List UInt8} (h : Answers broken call bytes answer rest)
    (h' : Answers broken call bytes answer' rest') : answer = answer' ∧ rest = rest' := by
  have he := h.read_eq.symm.trans h'.read_eq
  simpa using he

-- Spaces before a word make no difference to it.
theorem skip (hs : ∀ b ∈ spaces, isSpaceOctet b) (h : Answers broken .word bytes answer rest) :
    Answers broken .word (spaces ++ bytes) answer rest := by
  cases h
  case word hs' hw hn hb =>
    rw [← List.append_assoc]
    exact .word (List.forall_mem_append.mpr ⟨hs, hs'⟩) hw hn hb
  case lastWord hs' hw hn hb =>
    rw [← List.append_assoc]
    exact .lastWord (List.forall_mem_append.mpr ⟨hs, hs'⟩) hw hn hb
  case noWord hb hs' =>
    exact .noWord (List.forall_mem_append.mpr ⟨hs, hs'⟩) hb
  case lostWord hs' hw hb =>
    rw [← List.append_assoc]
    exact .lostWord (List.forall_mem_append.mpr ⟨hs, hs'⟩) hw hb

end Answers

-- Calls in a row: what each answers, and what they leave.
inductive Dialogue (broken : Bool) : List UInt8 → List Call → List Answer → List UInt8 → Prop
  | nil {bytes} :
    Dialogue broken bytes [] [] bytes
  | cons {call bytes answer rest calls answers rest'} :
    (call.Answers broken bytes answer rest) → (Dialogue broken rest calls answers rest') →
    Dialogue broken bytes (call :: calls) (answer :: answers) rest'

theorem Dialogue.unique {broken : Bool} {bytes rest rest' : List UInt8} {calls : List Call}
    {answers answers' : List Answer} (h : Dialogue broken bytes calls answers rest)
    (h' : Dialogue broken bytes calls answers' rest') : answers = answers' ∧ rest = rest' := by
  induction h generalizing answers'
  case nil =>
    cases h'
    exact ⟨rfl, rfl⟩
  case cons ha _ hi =>
    cases h'
    case cons ha' hd =>
      obtain ⟨rfl, rfl⟩ := ha.unique ha'
      obtain ⟨rfl, rfl⟩ := hi hd
      exact ⟨rfl, rfl⟩

end Source.Call

namespace Buffered

open Source (Call)

section Chunks

variable {p : UInt8 → Bool} {bytes word chunk : List UInt8}

theorem forall_mem_takeWhile : ∀ b ∈ bytes.takeWhile p, p b :=
  List.all_eq_true.mp List.all_takeWhile

-- What stops a run of octets is not of their kind.
theorem stop_of_dropWhile {rest : List UInt8} {stop : UInt8} (h : bytes.dropWhile p = stop :: rest) :
    p stop = false := by
  have hd := List.head?_dropWhile_not p bytes
  rw [h] at hd
  simpa using hd

-- The part of a chunk that is looked at for a word. Spaces are passed over until it has begun.
def wordPart (word chunk : List UInt8) : List UInt8 :=
  if word.isEmpty then chunk.dropWhile isSpaceOctet else chunk

theorem exists_spaces (word chunk : List UInt8) :
    ∃ spaces, (∀ b ∈ spaces, isSpaceOctet b) ∧
      ∀ more, word ++ (chunk ++ more) = spaces ++ (word ++ (wordPart word chunk ++ more)) := by
  cases word
  case cons => exact ⟨[], by simp [wordPart]⟩
  case nil  =>
    refine ⟨chunk.takeWhile isSpaceOctet, forall_mem_takeWhile, fun more => ?_⟩
    simp [wordPart, ← List.append_assoc]

theorem word_ne_nil {rest : List UInt8} {stop : UInt8}
    (h : (wordPart word chunk).dropWhile (!isSpaceOctet ·) = stop :: rest) :
    word ++ (wordPart word chunk).takeWhile (!isSpaceOctet ·) ≠ [] := by
  intro hn
  obtain ⟨rfl, ht⟩ := List.append_eq_nil_iff.mp hn
  have hc := List.takeWhile_append_dropWhile (p := (!isSpaceOctet ·)) (l := wordPart [] chunk)
  rw [ht, h] at hc
  have := stop_of_dropWhile hc.symm
  have := stop_of_dropWhile h
  simp_all

end Chunks

-- A word that has begun goes on through the chunks, and is read as if it were all in one piece.
theorem answers_readWordFrom (broken : Bool) (word : List UInt8) (chunks : List (List UInt8))
    (hw : ∀ b ∈ word, !isSpaceOctet b) :
    Call.word.Answers broken (word ++ chunks.flatten)
      (readWordFrom broken word chunks).1 (readWordFrom broken word chunks).2.chunks.flatten := by
  fun_induction readWordFrom broken word chunks
  case case1 word hb =>
    have h : Call.word.Answers broken ([] ++ word) _ [] := .lostWord nofun hw hb
    simpa using h
  case case2 word hb =>
    have hb : broken = false := by simpa using hb
    cases word
    case nil       => exact .noWord nofun hb
    case cons b bs =>
      have h : Call.word.Answers broken ([] ++ b :: bs) _ [] := .lastWord nofun hw nofun hb
      simpa using h
  case case3 word chunk chunks chunk' word' rest hr hi =>
    have ⟨spaces, hs, he⟩ := exists_spaces word chunk
    have hc : word ++ wordPart word chunk = word' ++ rest := by simp [word', rest, chunk', wordPart]
    rw [List.isEmpty_iff.mp hr, List.append_nil] at hc
    rw [List.flatten_cons, he, ← List.append_assoc word, hc]
    exact .skip hs (hi (List.forall_mem_append.mpr ⟨hw, forall_mem_takeWhile⟩))
  case case4 word chunk chunks chunk' word' rest hr =>
    have ⟨spaces, hs, he⟩ := exists_spaces word chunk
    have hc : word ++ wordPart word chunk = word' ++ rest := by simp [word', rest, chunk', wordPart]
    have hw' : ∀ b ∈ word', !isSpaceOctet b :=
      List.forall_mem_append.mpr ⟨hw, forall_mem_takeWhile⟩
    obtain ⟨stop, more, hr⟩ := List.exists_cons_of_ne_nil (mt List.isEmpty_iff.mpr hr)
    have hb : isSpaceOctet stop := by simpa using stop_of_dropWhile hr
    rw [List.flatten_cons, he, ← List.append_assoc word, hc, List.append_assoc]
    dsimp only
    rw [List.flatten_cons, hr]
    exact .word hs hw' (word_ne_nil hr) hb

theorem answers_readLineFrom (broken : Bool) (line : List UInt8) (chunks : List (List UInt8))
    (h : ∀ b ∈ line, b != lineFeed) :
    Call.line.Answers broken (line ++ chunks.flatten)
      (readLineFrom broken line chunks).1 (readLineFrom broken line chunks).2.chunks.flatten := by
  fun_induction readLineFrom broken line chunks
  case case1 line hb => simpa using Call.Answers.lostLine h hb
  case case2 line hb =>
    have hb : broken = false := by simpa using hb
    cases line
    case nil  => exact .noLine hb
    case cons => simpa using Call.Answers.lastLine h nofun hb
  case case3 line chunk chunks line' hd hi =>
    have hc : line ++ chunk = line' ++ chunk.dropWhile (· != lineFeed) := by simp [line']
    rw [hd, List.append_nil] at hc
    rw [List.flatten_cons, ← List.append_assoc, hc]
    exact hi (List.forall_mem_append.mpr ⟨h, forall_mem_takeWhile⟩)
  case case4 line chunk chunks line' stop rest hd =>
    have hc : line ++ chunk = line' ++ chunk.dropWhile (· != lineFeed) := by simp [line']
    have hs : stop = lineFeed := by simpa using stop_of_dropWhile hd
    subst hs
    rw [List.flatten_cons, ← List.append_assoc, hc, hd, List.append_assoc]
    exact .line (List.forall_mem_append.mpr ⟨h, forall_mem_takeWhile⟩)

theorem broken_readWordFrom (broken : Bool) (word : List UInt8) (chunks : List (List UInt8)) :
    (readWordFrom broken word chunks).2.broken = broken := by
  fun_induction readWordFrom broken word chunks
  case case3 hi => exact hi
  all_goals rfl

theorem broken_readLineFrom (broken : Bool) (line : List UInt8) (chunks : List (List UInt8)) :
    (readLineFrom broken line chunks).2.broken = broken := by
  fun_induction readLineFrom broken line chunks
  case case3 hi => exact hi
  all_goals rfl

def read (b : Buffered) : Call → Answer × Buffered
  | .word => b.readWord
  | .line => b.readLine

theorem answers_read (b : Buffered) (call : Call) :
    call.Answers b.broken b.chunks.flatten (b.read call).1 (b.read call).2.chunks.flatten := by
  cases call
  case word => exact answers_readWordFrom b.broken [] b.chunks nofun
  case line => exact answers_readLineFrom b.broken [] b.chunks nofun

theorem broken_read (b : Buffered) (call : Call) : (b.read call).2.broken = b.broken := by
  cases call
  case word => exact broken_readWordFrom b.broken [] b.chunks
  case line => exact broken_readLineFrom b.broken [] b.chunks

-- What some calls in a row answer.
def answers (b : Buffered) : List Call → List Answer
  | []            => []
  | call :: calls => (b.read call).1 :: (b.read call).2.answers calls

def after (b : Buffered) : List Call → Buffered
  | []            => b
  | call :: calls => (b.read call).2.after calls

theorem dialogue_answers (b : Buffered) (calls : List Call) :
    Call.Dialogue b.broken b.chunks.flatten calls (b.answers calls) (b.after calls).chunks.flatten := by
  induction calls generalizing b
  case nil                => exact .nil
  case cons call calls hi => exact .cons (b.answers_read call) (b.broken_read call ▸ hi _)

-- The size of the buffer makes no difference.
theorem answers_cut (size : Nat) (bytes : List UInt8) (broken : Bool) (calls : List Call) :
    answers ⟨cut size bytes, broken⟩ calls = answers ⟨[bytes], broken⟩ calls := by
  have hc := dialogue_answers ⟨cut size bytes, broken⟩ calls
  have hw := dialogue_answers ⟨[bytes], broken⟩ calls
  simp only [flatten_cut, List.flatten_singleton] at hc hw
  exact (hc.unique hw).left

end Buffered

-- A source in one piece is one that arrives in a single chunk.
theorem Source.Call.answers_read (call : Call) (s : Source) :
    call.Answers s.broken s.bytes (call.read s).1 (call.read s).2.bytes := by
  have h := Buffered.answers_read ⟨[s.bytes], s.broken⟩ call
  rw [List.flatten_singleton] at h
  rw [h.read_eq]
  exact h

theorem Buffered.answers_iff_dialogue (b : Buffered) (calls : List Source.Call)
    (answers : List Answer) (rest : List UInt8) :
    (b.answers calls = answers ∧ (b.after calls).chunks.flatten = rest) ↔
      Source.Call.Dialogue b.broken b.chunks.flatten calls answers rest := by
  have hd := b.dialogue_answers calls
  constructor
  case mp =>
    rintro ⟨rfl, rfl⟩
    exact hd
  case mpr =>
    intro h
    exact hd.unique h

-- A word that goes over two borders, a line, and one more word that the source breaks off.
example :
    let b : Buffered := ⟨[[0x20, 0x61], [0x62], [0x63, 0x20], [0x64, 0x0a, 0x65]], true⟩
    b.answers [.word, .line, .word] =
      [.ok (some "abc"), .ok (some " d\n"), .error Source.brokenError] := by
  rfl

end Polish
