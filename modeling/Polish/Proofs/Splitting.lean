import Polish.Proofs.Buffering
import Polish.Proofs.Lossy
import Polish.Text.Blank

namespace Polish

open Text

-- The lines of a text: each ends with its one line feed, but for the last, which may have none.
structure Lines (lines : List String) (text : String) : Prop where
  join   : String.join lines = text
  filled : ∀ line ∈ lines, line ≠ ""
  once   : ∀ line ∈ lines, '\n' ∉ line.toList.dropLast
  ended  : ∀ line ∈ lines.dropLast, line.toList.getLast? = some '\n'

namespace Lines

variable {lines : List String} {line text : String}

theorem nil : Lines [] "" where
  join   := rfl
  filled := by simp
  once   := by simp
  ended  := by simp

theorem singleton (hn : line ≠ "") (h : '\n' ∉ line.toList) : Lines [line] line where
  join   := by simp
  filled := by simpa using hn
  once   := by simpa using fun hm => h (List.dropLast_subset _ hm)
  ended  := by simp

theorem cons (hl : Lines lines text) (h : '\n' ∉ line.toList) :
    Lines ((line ++ "\n") :: lines) (line ++ "\n" ++ text) := by
  have hd : (line ++ "\n").toList = line.toList ++ ['\n'] := by simp
  constructor
  case join   => rw [String.join_cons, hl.join]
  case filled => exact List.forall_mem_cons.mpr ⟨by simp, hl.filled⟩
  case once   => exact List.forall_mem_cons.mpr ⟨by rwa [hd, List.dropLast_concat], hl.once⟩
  case ended  =>
    by_cases hn : lines = []
    case pos => simp [hn]
    case neg =>
      rw [List.dropLast_cons_of_ne_nil hn]
      exact List.forall_mem_cons.mpr ⟨by simp, hl.ended⟩

end Lines

section Decoding

variable {b : UInt8} {bytes : List UInt8}

theorem ascii_of_isSpaceOctet (h : isSpaceOctet b) : b < 0x80 ∧ isSeparator (Char.ofNat b.toNat) := by
  simp only [isSpaceOctet, Bool.or_eq_true, beq_iff_eq] at h
  rcases h with (((rfl | rfl) | rfl) | rfl) | rfl <;> decide

theorem exists_isSpaceOctet {c : Char} (h : isSeparator c) :
    ∃ b, String.utf8EncodeChar c = [b] ∧ isSpaceOctet b := by
  simp only [isSeparator, Bool.or_eq_true, beq_iff_eq] at h
  rcases h with (((rfl | rfl) | rfl) | rfl) | rfl <;> exact ⟨_, rfl, rfl⟩

-- Decoding brings in no separator.
theorem not_isSeparator_of_mem {c : Char} (h : ∀ b ∈ bytes, !isSpaceOctet b)
    (hc : c ∈ (Utf8.decodeLossy bytes).toList) : !isSeparator c := by
  rw [Bool.not_eq_true']
  refine Bool.eq_false_iff.mpr fun hs => ?_
  obtain ⟨b, he, hb⟩ := exists_isSpaceOctet hs
  have hn := h b (Utf8.octet_mem_of_mem_decodeLossy hc he)
  simp [hb] at hn

theorem not_mem_lineFeed (h : ∀ b ∈ bytes, b != lineFeed) :
    '\n' ∉ (Utf8.decodeLossy bytes).toList := by
  intro hm
  have hl : String.utf8EncodeChar '\n' = [lineFeed] := by decide
  simpa using h lineFeed (Utf8.octet_mem_of_mem_decodeLossy hm hl)

theorem decodeLossy_line (line rest : List UInt8) :
    Utf8.decodeLossy (line ++ lineFeed :: rest) =
      Utf8.decodeLossy line ++ "\n" ++ Utf8.decodeLossy rest := by
  have hn : Char.ofNat lineFeed.toNat = '\n' := by decide
  rw [← String.toList_inj, Utf8.decodeLossy_append_ascii (by decide), hn]
  simp

theorem runs_spaces {spaces : List UInt8} (h : ∀ b ∈ spaces, isSpaceOctet b) (bytes : List UInt8) :
    runs (!isSeparator ·) (Utf8.decodeLossy (spaces ++ bytes)).toList =
      runs (!isSeparator ·) (Utf8.decodeLossy bytes).toList := by
  induction spaces
  case nil          => rfl
  case cons b bs hi =>
    obtain ⟨hb, hbs⟩ := List.forall_mem_cons.mp h
    have ⟨ha, hs⟩ := ascii_of_isSpaceOctet hb
    have hd := Utf8.decodeLossy_append_ascii ha [] (bs ++ bytes)
    have hs : ∀ c ∈ [Char.ofNat b.toNat], !!isSeparator c := by simpa using hs
    rw [List.cons_append, ← hi hbs, ← List.nil_append (b :: _), hd]
    exact runs_none hs

theorem runs_word {word rest : List UInt8} (hw : ∀ b ∈ word, !isSpaceOctet b) (hn : word ≠ [])
    (hb : isSpaceOctet b) :
    runs (!isSeparator ·) (Utf8.decodeLossy (word ++ b :: rest)).toList =
      (Utf8.decodeLossy word).toList ::
        runs (!isSeparator ·) (Utf8.decodeLossy (b :: rest)).toList := by
  have ⟨ha, hs⟩ := ascii_of_isSpaceOctet hb
  have hd := Utf8.decodeLossy_append_ascii ha
  rw [hd, ← List.nil_append (b :: rest), hd [] rest]
  refine runs_run_cons (fun c => not_isSeparator_of_mem hw) (Utf8.decodeLossy_ne_nil hn) ?_
  simpa using hs

end Decoding

namespace Source.Call

-- Calls of one kind until there is nothing left, with what they hand out.
inductive Yields (call : Call) : Source → List String → Prop
  | done {s s'} :
    (call.read s = (.ok none, s')) → Yields call s []
  | more {s s' text texts} :
    (call.read s = (.ok (some text), s')) → (Yields call s' texts) → Yields call s (text :: texts)

theorem exists_answers (call : Call) (bytes : List UInt8) :
    ∃ answer rest, call.Answers false bytes answer rest :=
  ⟨_, _, call.answers_read ⟨bytes, false⟩⟩

-- Induction on the octets that are left, since each call takes some of them.
theorem exists_yields_line (bytes : List UInt8) :
    ∃ lines, Call.line.Yields ⟨bytes, false⟩ lines ∧ Lines lines (Utf8.decodeLossy bytes) := by
  induction hn : bytes.length using Nat.strongRecOn generalizing bytes
  case ind n hi =>
    obtain ⟨answer, rest, h⟩ := exists_answers .line bytes
    have hr := h.read_eq
    cases h
    case line line h =>
      obtain ⟨lines, hy, hl⟩ := hi rest.length (by simp [← hn]; omega) rest rfl
      have hd : Utf8.decodeLossy (line ++ [lineFeed]) = Utf8.decodeLossy line ++ "\n" := by
        simpa using decodeLossy_line line []
      refine ⟨_, .more hr hy, ?_⟩
      rw [hd, decodeLossy_line]
      exact hl.cons (not_mem_lineFeed h)
    case lastLine _ h hl =>
      refine ⟨_, .more hr (.done (read_line_end nofun)), ?_⟩
      exact .singleton (by simpa using Utf8.decodeLossy_ne_nil hl) (not_mem_lineFeed h)
    case noLine        => exact ⟨_, .done hr, .nil⟩
    case lostLine hb _ => cases hb

theorem yields_word (bytes : List UInt8) :
    Call.word.Yields ⟨bytes, false⟩
      ((runs (!isSeparator ·) (Utf8.decodeLossy bytes).toList).map String.ofList) := by
  induction hn : bytes.length using Nat.strongRecOn generalizing bytes
  case ind n hi =>
    obtain ⟨answer, rest, h⟩ := exists_answers .word bytes
    have hr := h.read_eq
    cases h
    case word spaces word stop rest hs hw he hb =>
      have hl : 0 < word.length := List.length_pos_iff.mpr he
      have hy := hi (stop :: rest).length (by simp [← hn]; omega) (stop :: rest) rfl
      rw [runs_spaces hs, runs_word hw he hb, List.map_cons, String.ofList_toList]
      exact .more hr hy
    case lastWord spaces word hs hw he _ =>
      rw [runs_spaces hs, runs_run (fun c => not_isSeparator_of_mem hw) (Utf8.decodeLossy_ne_nil he)]
      rw [List.map_cons, String.ofList_toList]
      have hl : 0 < word.length := List.length_pos_iff.mpr he
      exact .more hr (hi 0 (by simp [← hn]; omega) [] rfl)
    case noWord _ hs =>
      have h := runs_spaces hs []
      rw [List.append_nil] at h
      rw [h]
      exact .done hr
    case lostWord hb => cases hb

end Source.Call

-- Whether octets are split or decoded first makes no difference.
theorem Source.lines_words_lossy (bytes : List UInt8) :
    (∀ cs, Utf8.Lossy bytes cs ↔ (Utf8.decodeLossy bytes).toList = cs) ∧
      (∃ lines, Call.line.Yields ⟨bytes, false⟩ lines ∧ Lines lines (Utf8.decodeLossy bytes)) ∧
      Call.word.Yields ⟨bytes, false⟩
        ((runs (!isSeparator ·) (Utf8.decodeLossy bytes).toList).map String.ofList) ∧
      ∀ text, Utf8.decodeLossy (Utf8.encode text) = text :=
  ⟨Utf8.lossy_iff bytes, Call.exists_yields_line bytes, Call.yields_word bytes,
    Utf8.decodeLossy_encode⟩

-- A character that a space breaks off is replaced once, and what was cut off of it once more.
example : Utf8.decodeLossy [0xe2, 0x82, 0x20, 0xac] = "\ufffd \ufffd" := by
  decide

end Polish
