import Polish.Proofs.MaximalMunch

namespace Polish

namespace Lexer

open Munch

def isLiteral : Lexer → Bool
  | .literal _ _ => true
  | _            => false

theorem run_cons (l : Lexer) (c : Char) (cs : List Char) :
    l.run (c :: cs) = (((l.feed c).1.run cs).1, (l.feed c).2.toArray ++ ((l.feed c).1.run cs).2) := by
  rw [run, runFrom, runFrom_eq_run]
  simp

theorem produce_append (l : Lexer) (cs ds : List Char) :
    l.produce (cs ++ ds) = (l.run cs).2.toList ++ (l.run cs).1.produce ds := by
  simp [produce, run_append]

-- Outside of literals and comments, a character that no word goes on with ends what is being read,
-- and is met as if it came first.
theorem feed_of_endsWord {l : Lexer} {c : Char} (hl : ¬l.isLiteral) (hc : l ≠ comment)
    (h : endsWord c) : l.feed c = ((start c).next, l.finish.2 ++ (start c).tokens) := by
  have hw : isWordChar c = false := by simpa [endsWord_eq] using h
  have hn : (c.isDigit || c == '.') = false :=
    Bool.eq_false_iff.mpr fun hn => absurd (isWordChar_of_isNumeral hn) (by simp [hw])
  cases l
  case idle    => simp [feed, offer, finish, not_again_start]
  case comment => exact absurd rfl hc
  case number  => simp [feed, offer, finish, hn]
  case word    => simp [feed, offer, finish, h]
  case literal => exact absurd rfl hl

theorem feed_newline {l : Lexer} (h : ¬l.isLiteral) : l.feed '\n' = (idle, l.finish.2) := by
  by_cases hc : l = comment
  case pos => rw [hc]; rfl
  case neg =>
    rw [feed_of_endsWord h hc rfl]
    exact congrArg _ (List.append_nil _)

-- In a comment there is nothing to end, and another one does not begin.
theorem feed_hash {l : Lexer} (h : ¬l.isLiteral) : l.feed '#' = (comment, l.finish.2) := by
  by_cases hc : l = comment
  case pos => rw [hc]; rfl
  case neg =>
    rw [feed_of_endsWord h hc rfl]
    exact congrArg _ (List.append_nil _)

theorem produce_newline {l : Lexer} (h : ¬l.isLiteral) (cs : List Char) :
    l.produce ('\n' :: cs) = l.finish.2 ++ idle.produce cs := by
  rw [produce_cons, feed_newline h]

theorem produce_hash {l : Lexer} (h : ¬l.isLiteral) (cs : List Char) :
    l.produce ('#' :: cs) = l.finish.2 ++ idle.produce (cs.dropWhile (· != '\n')) := by
  rw [produce_cons, feed_hash h, produce_comment]

end Lexer

-- A text at whose end no literal is open.
def ClosesLiterals (source : String) : Prop :=
  ¬(Lexer.idle.run source.toList).1.isLiteral

instance (source : String) : Decidable (ClosesLiterals source) :=
  inferInstanceAs (Decidable (¬_))

theorem ClosesLiterals.produce_line {source : String} (h : ClosesLiterals source) (cs : List Char) :
    Lexer.idle.produce (source.toList ++ '\n' :: cs) = tokenize source ++ Lexer.idle.produce cs := by
  rw [Lexer.produce_append, Lexer.produce_newline h, ← List.append_assoc, tokenize_eq_produce]
  rfl

-- The comment takes up the rest of its line and nothing of the ones after it.
theorem ClosesLiterals.produce_comment {source : String} (h : ClosesLiterals source)
    (cs : List Char) :
    Lexer.idle.produce (source.toList ++ '#' :: cs) =
      tokenize source ++ Lexer.idle.produce (cs.dropWhile (· != '\n')) := by
  rw [Lexer.produce_append, Lexer.produce_hash h, ← List.append_assoc, tokenize_eq_produce]
  rfl

theorem dropWhile_remark {remark : List Char} (h : '\n' ∉ remark) (cs : List Char) :
    (remark ++ cs).dropWhile (· != '\n') = cs.dropWhile (· != '\n') := by
  refine List.dropWhile_append_of_pos fun c hc => ?_
  have hn : c ≠ '\n' := fun hn => h (hn ▸ hc)
  simpa using hn

theorem produce_lines {sources : List String} (h : ∀ s ∈ sources, ClosesLiterals s) (cs : List Char) :
    Lexer.idle.produce (sources.flatMap (fun s => s.toList ++ ['\n']) ++ cs) =
      sources.flatMap tokenize ++ Lexer.idle.produce cs := by
  induction sources
  case nil          => rfl
  case cons s ss hi =>
    have ⟨hs, hss⟩ := List.forall_mem_cons.mp h
    have hl := hs.produce_line (ss.flatMap (fun s => s.toList ++ ['\n']) ++ cs)
    rw [hi hss] at hl
    simpa using hl

-- Outside of literals, the end of a line ends all that is being read, as the end of the text does.
theorem tokenize_lines_apart {text : String} (h : ClosesLiterals text) :
    (∀ rest, tokenize (text ++ "\n" ++ rest) = tokenize text ++ tokenize rest) ∧
    ∀ remark : String, '\n' ∉ remark.toList →
      tokenize (text ++ "#" ++ remark) = tokenize text ∧
      ∀ rest, tokenize (text ++ "#" ++ remark ++ "\n" ++ rest) = tokenize (text ++ "\n" ++ rest) := by
  have hl (rest : String) : tokenize (text ++ "\n" ++ rest) = tokenize text ++ tokenize rest := by
    have hp := h.produce_line rest.toList
    rw [← tokenize_eq_produce] at hp
    simpa [tokenize_eq_produce (text ++ "\n" ++ rest)] using hp
  refine ⟨hl, fun remark hr => ⟨?_, fun rest => ?_⟩⟩
  · have hp := h.produce_comment (remark.toList ++ [])
    rw [dropWhile_remark hr] at hp
    simpa [tokenize_eq_produce (text ++ "#" ++ remark), Lexer.produce_idle_nil] using hp
  · have hp := h.produce_comment (remark.toList ++ '\n' :: rest.toList)
    have hn : Lexer.idle.produce ('\n' :: rest.toList) = tokenize rest := by
      rw [tokenize_eq_produce]
      exact Lexer.produce_idle '\n' rest.toList
    rw [dropWhile_remark hr, List.dropWhile_cons_of_neg (by simp), hn, ← hl] at hp
    simpa [tokenize_eq_produce (text ++ "#" ++ remark ++ "\n" ++ rest)] using hp

-- The remark touches a number in one text, and in the other it stands in a comment with a quote.
theorem tokenize_lines_apart_number :
    ClosesLiterals "(+ 1.5" ∧ ClosesLiterals "(+ 1.5 # \"" ∧ '\n' ∉ "2) \"".toList ∧
    tokenize "(+ 1.5#2) \"\nx)" = tokenize "(+ 1.5\nx)" ∧
    tokenize "(+ 1.5 # \"#2) \"\nx)" = tokenize "(+ 1.5 # \"" ++ tokenize "x)" := by
  have hn : ClosesLiterals "(+ 1.5" := by decide
  have hc : ClosesLiterals "(+ 1.5 # \"" := by decide
  have hr : '\n' ∉ "2) \"".toList := by decide
  have ⟨_, hn'⟩ := tokenize_lines_apart hn
  have ⟨hl, hc'⟩ := tokenize_lines_apart hc
  exact ⟨hn, hc, hr, (hn' _ hr).right "x)", ((hc' _ hr).right "x)").trans (hl "x)")⟩

end Polish
