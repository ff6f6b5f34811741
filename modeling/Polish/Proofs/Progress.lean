import Polish.Proofs.Resuming

namespace Polish

open Text Munch

namespace Lexer

-- Whether a character is to be offered once more. A separator has nothing left to do after it has
-- ended a token.
def wants (l : Lexer) (c : Char) : Bool :=
  (l.offer c).again && !isSeparator c

-- What the rest of a text comes to: its tokens, and the lexer that is left for reading another.
def readAll (l : Lexer) (cs : List Char) : List Token × Lexer :=
  (l.produce cs, (l.run cs).1.finish.1)

variable {l : Lexer} {c : Char} {cs : List Char}

theorem wants_idle (c : Char) : idle.wants c = false := by
  simp [wants, offer, not_again_start]

theorem idle_of_wants (h : l.wants c) : (l.offer c).next = idle :=
  offer_next_of_again (Bool.and_eq_true_iff.mp h).left

theorem not_wants_of_isLiteral (h : l.isLiteral) (c : Char) : l.wants c = false := by
  cases l
  case literal text escaped =>
    suffices ha : ((literal text escaped).offer c).again = false by simp [wants, ha]
    cases escaped
    case true  => rfl
    case false =>
      rw [offer]
      repeat' split
      all_goals rfl
  all_goals cases h

theorem scan_eq_readAll (l : Lexer) (source : String) : l.scan source = l.readAll source.toList :=
  Prod.ext (scan_fst l source) rfl

theorem readAll_nil (l : Lexer) : l.readAll [] = (l.finish.2, l.finish.1) := by
  rw [readAll, produce_nil]
  rfl

theorem readAll_cons (l : Lexer) (c : Char) (cs : List Char) :
    l.readAll (c :: cs) =
      ((l.feed c).2 ++ ((l.feed c).1.readAll cs).1, ((l.feed c).1.readAll cs).2) := by
  rw [readAll, produce_cons, run_cons]
  rfl

theorem feed_of_read (h : (l.offer c).again = false) :
    l.feed c = ((l.offer c).next, (l.offer c).tokens) := by
  simp [feed, h]

theorem feed_of_again (h : (l.offer c).again) :
    l.feed c = ((start c).next, (l.offer c).tokens ++ (start c).tokens) := by
  rw [feed, if_pos h, offer_next_of_again h]
  rfl

-- One offer. The character is there for the next one if it is wanted, and otherwise is not.
theorem readAll_offer (l : Lexer) (c : Char) (cs : List Char) :
    l.readAll (c :: cs) =
      let rest := (l.offer c).next.readAll (if l.wants c then c :: cs else cs)
      ((l.offer c).tokens ++ rest.1, rest.2) := by
  by_cases ha : (l.offer c).again
  case neg =>
    have hw : l.wants c = false := by simp [wants, ha]
    rw [readAll_cons, feed_of_read (by simpa using ha), hw]
    rfl
  case pos =>
    rw [readAll_cons, feed_of_again ha, offer_next_of_again ha]
    by_cases hs : isSeparator c
    case pos =>
      have hw : l.wants c = false := by simp [wants, hs]
      rw [start_separator hs, hw, List.append_nil]
      rfl
    case neg =>
      have hw : l.wants c := by simp [wants, ha, hs]
      have hf : idle.feed c = ((start c).next, (start c).tokens) := feed_of_read (not_again_start c)
      rw [if_pos hw, readAll_cons idle, hf, List.append_assoc]

-- Nothing is open outside of literals but what the end of a line completes as well.
theorem readAll_line (hl : ¬l.isLiteral) (hc : ∀ c ∈ cs.head?, c = '\n') :
    l.readAll cs = (l.finish.2 ++ (idle.readAll cs).1, (idle.readAll cs).2) := by
  cases cs
  case nil =>
    have hf : l.finish.1 = idle := by
      cases l
      case literal => exact absurd rfl hl
      all_goals rfl
    rw [readAll_nil, readAll_nil, hf]
    simp [finish]
  case cons c cs =>
    rw [hc c rfl, readAll_cons l, readAll_cons idle, feed_newline hl]
    rfl

theorem readAll_comment (cs : List Char) :
    comment.readAll cs = idle.readAll (cs.dropWhile (· != '\n')) := by
  induction cs
  case nil          => rfl
  case cons c cs hi =>
    by_cases hc : c = '\n'
    case pos =>
      subst hc
      rfl
    case neg =>
      have hf : comment.feed c = (comment, []) := by simp [feed, offer, hc]
      rw [readAll_cons, hf, hi, List.dropWhile_cons_of_pos (by simpa using hc)]
      rfl

theorem head_lineEnd (cs : List Char) : ∀ c ∈ (cs.dropWhile (· != '\n')).head?, c = '\n' := by
  intro c hc
  have hn := List.head?_dropWhile_not (· != '\n') cs
  rw [hc] at hn
  simpa using hn

-- Reading a comment comes to the same as passing it over.
theorem readAll_hash (hl : ¬l.isLiteral) (cs : List Char) :
    l.readAll ('#' :: cs) = l.readAll (cs.dropWhile (· != '\n')) := by
  rw [readAll_cons, feed_hash hl, readAll_comment, readAll_line hl (head_lineEnd cs)]

end Lexer

namespace Scanner

-- What one round of the loop comes to.
inductive Round
  -- There is nothing left to read.
  | ended
  -- There is no character at the place.
  | astray
  -- The character at a place was offered, and is wanted once more or not.
  | offered (place : Nat) (again : Bool) (next : Scanner)
deriving DecidableEq, Repr

def offer (s : Scanner) (c : Char) : Scanner :=
  { s with lexer := (s.lexer.offer c).next, tokens := s.tokens ++ (s.lexer.offer c).tokens }

def offerAt (s : Scanner) (i : Nat) : Round :=
  match s.source.toList[i]? with
  | none   => .astray
  | some c => .offered i (s.lexer.wants c) (s.offer c)

-- The first place from `i` on where the line ends, or else the text.
def lineEnd (s : Scanner) (i : Nat) : Nat :=
  i + ((s.source.toList.drop i).takeWhile (· != '\n')).length

def round (s : Scanner) (i : Nat) : Round :=
  if i < s.source.toList.length then
    if s.source.toList[i]? = some '#' ∧ ¬s.lexer.isLiteral then
      if s.lineEnd i < s.source.toList.length then s.offerAt (s.lineEnd i) else .ended
    else s.offerAt i
  else .ended

-- Rounds from a place on until it is over, with the places whose characters were offered.
inductive Loop : Scanner → Nat → List Nat → Scanner → Prop
  | ended {s : Scanner} {i : Nat} :
    (s.round i = .ended) → Loop s i [] s
  | offered {s s' s'' : Scanner} {i j : Nat} {again : Bool} {places : List Nat} :
    (s.round i = .offered j again s') → (Loop s' (if again then j else j + 1) places s'') →
    Loop s i (j :: places) s''

-- Ends the text, and hands out all tokens.
def close (s : Scanner) : List Token × Scanner :=
  (s.tokens ++ s.lexer.finish.2, { s with lexer := s.lexer.finish.1, tokens := [] })

-- The next character from `i` on that is offered, and what follows it. Passing over what stands before
-- it changes nothing.
structure Upcoming (s : Scanner) (i j : Nat) (c : Char) (cs : List Char) : Prop where
  le      : i ≤ j
  drop    : s.source.toList.drop j = c :: cs
  literal : (c = '#') → s.lexer.isLiteral
  reads   : s.lexer.readAll (s.source.toList.drop i) = s.lexer.readAll (c :: cs)

-- All that a round may come to.
inductive Goes (s : Scanner) (i : Nat) : Round → Prop
  | ended :
    (s.lexer.readAll (s.source.toList.drop i) = s.lexer.readAll []) → Goes s i .ended
  | offered {j c cs} :
    (s.Upcoming i j c cs) → Goes s i (.offered j (s.lexer.wants c) (s.offer c))

variable {s s' : Scanner} {i j : Nat} {c : Char} {cs : List Char} {again : Bool} {places : List Nat}

theorem lt_length_of_drop (h : s.source.toList.drop i = c :: cs) : i < s.source.toList.length := by
  refine Nat.lt_of_not_le fun hi => ?_
  rw [List.drop_eq_nil_of_le hi] at h
  cases h

theorem getElem?_of_drop (h : s.source.toList.drop i = c :: cs) : s.source.toList[i]? = some c := by
  rw [← List.head?_drop, h]
  rfl

theorem offerAt_of_drop (h : s.source.toList.drop i = c :: cs) :
    s.offerAt i = .offered i (s.lexer.wants c) (s.offer c) := by
  rw [offerAt, getElem?_of_drop h]

theorem round_of_drop (h : s.source.toList.drop i = c :: cs) (hc : c = '#' → s.lexer.isLiteral) :
    s.round i = .offered i (s.lexer.wants c) (s.offer c) := by
  have hn : ¬(s.source.toList[i]? = some '#' ∧ ¬s.lexer.isLiteral) := by
    rw [getElem?_of_drop h]
    simpa using hc
  rw [round, if_pos (lt_length_of_drop h), if_neg hn, offerAt_of_drop h]

theorem drop_lineEnd (s : Scanner) (i : Nat) :
    s.source.toList.drop (s.lineEnd i) = (s.source.toList.drop i).dropWhile (· != '\n') := by
  rw [lineEnd, ← List.drop_drop]
  generalize s.source.toList.drop i = cs
  have h : (cs.takeWhile (· != '\n') ++ cs.dropWhile (· != '\n')).drop
      (cs.takeWhile (· != '\n')).length = cs.dropWhile (· != '\n') := List.drop_left
  rwa [List.takeWhile_append_dropWhile] at h

theorem goes_round_comment (h : s.source.toList.drop i = '#' :: cs) (hl : ¬s.lexer.isLiteral) :
    s.Goes i (s.round i) := by
  have hd := s.drop_lineEnd i
  rw [h, List.dropWhile_cons_of_pos (by decide)] at hd
  have hr : s.lexer.readAll (s.source.toList.drop i) =
      s.lexer.readAll (s.source.toList.drop (s.lineEnd i)) := by
    rw [h, hd, Lexer.readAll_hash hl]
  rw [round, if_pos (lt_length_of_drop h), if_pos ⟨getElem?_of_drop h, hl⟩]
  cases he : s.source.toList.drop (s.lineEnd i) <;> rw [he] at hr
  case nil =>
    rw [if_neg (Nat.not_lt.mpr (List.drop_eq_nil_iff.mp he))]
    exact .ended hr
  case cons c _ =>
    have hc : c = '\n' := Lexer.head_lineEnd cs c (by rw [← hd, he]; rfl)
    have hh : c ≠ '#' := by simp [hc]
    rw [if_pos (lt_length_of_drop he), offerAt_of_drop he]
    exact .offered ⟨Nat.le_add_right .., he, fun h => absurd h hh, hr⟩

theorem goes_round (s : Scanner) (i : Nat) : s.Goes i (s.round i) := by
  cases h : s.source.toList.drop i
  case nil =>
    rw [round, if_neg (Nat.not_lt.mpr (List.drop_eq_nil_iff.mp h))]
    exact .ended (by rw [h])
  case cons c cs =>
    by_cases hc : c = '#' → s.lexer.isLiteral
    case pos =>
      rw [round_of_drop h hc]
      exact .offered ⟨Nat.le_refl i, h, hc, by rw [h]⟩
    case neg =>
      obtain ⟨rfl, hl⟩ := Classical.not_imp.mp hc
      exact goes_round_comment h hl

theorem goes_of_round {r : Round} (h : s.round i = r) : s.Goes i r :=
  h ▸ s.goes_round i

theorem round_ne_astray (s : Scanner) (i : Nat) : s.round i ≠ .astray :=
  fun h => nomatch goes_of_round h

theorem exists_upcoming (h : s.round i = .offered j again s') :
    ∃ c cs, s.Upcoming i j c cs ∧ again = s.lexer.wants c ∧ s' = s.offer c := by
  cases goes_of_round h
  case offered hu => exact ⟨_, _, hu, rfl, rfl⟩

theorem Upcoming.lt_length (h : s.Upcoming i j c cs) : j < s.source.toList.length :=
  lt_length_of_drop h.drop

-- A character that is wanted once more is read the next time.
theorem read_again (h : s.round i = .offered j true s') :
    s'.lexer = .idle ∧ ∃ s'', s'.round j = .offered j false s'' := by
  obtain ⟨c, cs, hu, ha, rfl⟩ := exists_upcoming h
  have hi : (s.offer c).lexer = .idle := Lexer.idle_of_wants ha.symm
  have hc : c = '#' → (s.offer c).lexer.isLiteral := by
    intro hc
    rw [Lexer.not_wants_of_isLiteral (hu.literal hc)] at ha
    cases ha
  have hr := round_of_drop (s := s.offer c) hu.drop hc
  rw [hi, Lexer.wants_idle] at hr
  exact ⟨hi, _, hr⟩

-- How many offers there may still be. Each place has two, but the next one only has one if the lexer
-- is idle.
def ahead (s : Scanner) (i : Nat) : Nat :=
  2 * (s.source.toList.length - i) + if s.lexer = .idle then 0 else 1

theorem ahead_lt (h : s.round i = .offered j again s') :
    s'.ahead (if again then j else j + 1) < s.ahead i := by
  obtain ⟨c, cs, hu, rfl, rfl⟩ := exists_upcoming h
  have hj := hu.lt_length
  have hij := hu.le
  have hs : (s.offer c).source = s.source := rfl
  by_cases hw : s.lexer.wants c
  case pos =>
    have hi : s.lexer ≠ .idle := by
      intro hi
      simp [hi, Lexer.wants_idle] at hw
    have hi' : (s.offer c).lexer = .idle := Lexer.idle_of_wants hw
    rw [if_pos hw, ahead, ahead, if_neg hi, if_pos hi', hs]
    omega
  case neg =>
    rw [if_neg hw, ahead, ahead, hs]
    split <;> split <;> omega

theorem exists_loop (s : Scanner) (i : Nat) : ∃ places s', Loop s i places s' := by
  induction hn : s.ahead i using Nat.strongRecOn generalizing s i
  case ind n hi =>
    cases hr : s.round i
    case ended               => exact ⟨[], s, .ended hr⟩
    case astray             => exact absurd hr (s.round_ne_astray i)
    case offered j again s' =>
      obtain ⟨places, s'', h⟩ := hi _ (hn ▸ ahead_lt hr) s' _ rfl
      exact ⟨j :: places, s'', .offered hr h⟩

namespace Loop

theorem within (h : Loop s i places s') : ∀ j ∈ places, i ≤ j ∧ j < s.source.toList.length := by
  induction h
  case ended => exact nofun
  case offered i j again places hr _ hi =>
    obtain ⟨c, cs, hu, rfl, rfl⟩ := exists_upcoming hr
    refine List.forall_mem_cons.mpr ⟨⟨hu.le, hu.lt_length⟩, fun k hk => ?_⟩
    have ⟨hk, hl⟩ := hi k hk
    have hij := hu.le
    exact ⟨by split at hk <;> omega, hl⟩

theorem ordered (h : Loop s i places s') : places.Pairwise (· ≤ ·) := by
  induction h
  case ended => exact .nil
  case offered i j again places hr hl hi =>
    refine .cons (fun k hk => ?_) hi
    have ⟨hk, _⟩ := hl.within k hk
    split at hk <;> omega

-- After a character has been read, its place does not come again.
theorem count_of_lt (h : Loop s i places s') (hj : j < i) : places.count j = 0 := by
  refine List.count_eq_zero.mpr fun hm => ?_
  have := (h.within j hm).left
  omega

theorem once (h : Loop s i places s') (hi : s.lexer = .idle) : places.count i ≤ 1 := by
  cases h
  case ended => exact Nat.zero_le 1
  case offered j again places hr hl =>
    obtain ⟨c, cs, hu, rfl, rfl⟩ := exists_upcoming hr
    rw [hi, Lexer.wants_idle] at hl
    have hij := hu.le
    have hc : places.count i = 0 := hl.count_of_lt (by simp; omega)
    rw [List.count_cons, hc]
    split <;> omega

theorem twice (h : Loop s i places s') (k : Nat) : places.count k ≤ 2 := by
  induction h
  case ended => exact Nat.zero_le 2
  case offered i j again places hr hl hi =>
    rw [List.count_cons]
    split
    case isFalse => exact hi
    case isTrue hk =>
      obtain rfl := beq_iff_eq.mp hk
      cases again
      case true  => exact Nat.succ_le_succ (hl.once (read_again hr).left)
      case false => rw [hl.count_of_lt (by simp)]; decide

-- The loop leaves what reading the characters from its place on in a row leaves.
theorem close_eq (h : Loop s i places s') :
    let rest := s.lexer.readAll (s.source.toList.drop i)
    s'.close = (s.tokens ++ rest.1, { s with lexer := rest.2, tokens := [] }) := by
  induction h
  case ended s i hr =>
    cases goes_of_round hr
    case ended h =>
      rw [h, Lexer.readAll_nil]
      rfl
  case offered s _ _ i j again places hr hl hi =>
    obtain ⟨c, cs, hu, rfl, rfl⟩ := exists_upcoming hr
    have hd : s.source.toList.drop (if s.lexer.wants c then j else j + 1) =
        if s.lexer.wants c then c :: cs else cs := by
      split
      case isTrue  => exact hu.drop
      case isFalse => rw [← List.tail_drop, hu.drop]; rfl
    dsimp only [offer] at hi ⊢
    rw [hi, hd, hu.reads, Lexer.readAll_offer, List.append_assoc]

end Loop

-- No round moves back or leaves the text, and what is wanted once more is read in the next one. So the
-- loop comes to an end from every place and in every state, no character having been offered more than
-- twice, and over the whole text it does what `scan` does.
theorem loop_progresses (s : Scanner) (i : Nat) :
    (∀ j again s', s.round i = .offered j again s' →
      i ≤ j ∧ j < s.source.toList.length ∧
      (again → s'.lexer = .idle ∧ ∃ s'', s'.round j = .offered j false s'')) ∧
    s.round i ≠ .astray ∧
    ∃ places s', Loop s i places s' ∧
      (∀ j ∈ places, i ≤ j ∧ j < s.source.toList.length) ∧ places.Pairwise (· ≤ ·) ∧
      (∀ j, places.count j ≤ 2) ∧ (i = 0 → s.scan = s'.close) := by
  refine ⟨fun j again s' h => ?_, s.round_ne_astray i, ?_⟩
  · obtain ⟨c, cs, hu, _, _⟩ := exists_upcoming h
    exact ⟨hu.le, hu.lt_length, fun ha => read_again (ha ▸ h)⟩
  · obtain ⟨places, s', h⟩ := s.exists_loop i
    refine ⟨places, s', h, h.within, h.ordered, h.twice, ?_⟩
    rintro rfl
    rw [h.close_eq, scan, Lexer.scan_eq_readAll]
    rfl

-- A parenthesis that ends a number.
theorem loop_progresses_parenthesis :
    let s : Scanner := { source := "7)#x\n", lexer := .number "7" }
    let s' : Scanner := { source := "7)#x\n", tokens := [⟨.numeric, "7"⟩] }
    s.round 1 = .offered 1 true s' ∧ s'.lexer = .idle ∧ ∃ s'', s'.round 1 = .offered 1 false s'' := by
  intro s s'
  have h : s.round 1 = .offered 1 true s' := by decide
  have ⟨_, _, ha⟩ := (loop_progresses s 1).left 1 true s' h
  exact ⟨h, ha rfl⟩

end Scanner
end Polish
