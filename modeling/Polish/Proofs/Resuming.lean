import Polish.Proofs.Lines

namespace Polish

namespace Lexer

-- The lexers that the end of a text may leave, and the characters that bring a fresh one there.
inductive Resumes : Lexer → String → Prop
  | fresh   : Resumes .idle ""
  | quoted  : Resumes (.literal "" false) "\""
  | escaped : Resumes (.literal "" true) "\"\\"

theorem exists_resumes_finish (l : Lexer) : ∃ opening, l.finish.1.Resumes opening := by
  cases l
  case literal text escaped =>
    rw [finish]
    split
    case isFalse   => exact ⟨_, .fresh⟩
    case isTrue ht =>
      rw [String.isEmpty_iff.mp ht]
      cases escaped
      case false => exact ⟨_, .quoted⟩
      case true  => exact ⟨_, .escaped⟩
  all_goals exact ⟨_, .fresh⟩

theorem Resumes.run_eq {l : Lexer} {opening : String} :
    (l.Resumes opening) → idle.run opening.toList = (l, #[])
  | .fresh | .quoted | .escaped => by decide

theorem scan_fst (l : Lexer) (source : String) : (l.scan source).1 = l.produce source.toList := by
  simp [scan, produce]

theorem Resumes.scan_eq {l : Lexer} {opening : String} (h : l.Resumes opening) (source : String) :
    (l.scan source).1 = tokenize (opening ++ source) := by
  rw [scan_fst, tokenize_eq_produce, String.toList_append, produce_append, h.run_eq]
  rfl

-- The tokens that a lexer completes on being given characters and, in between, ends of texts.
def completed (l : Lexer) : List (Option Char) → List Token
  | []           => []
  | some c :: es => (l.feed c).2 ++ (l.feed c).1.completed es
  | none :: es   => l.finish.2 ++ l.finish.1.completed es

-- The characters of a text, and its end.
def whole (source : String) : List (Option Char) :=
  source.toList.map some ++ [none]

theorem completed_whole (l : Lexer) (source : String) (es : List (Option Char)) :
    l.completed (whole source ++ es) = (l.scan source).1 ++ (l.scan source).2.completed es := by
  suffices h : ∀ cs : List Char, l.completed (cs.map some ++ none :: es) =
      l.produce cs ++ (l.run cs).1.finish.1.completed es by
    rw [scan_fst, whole, List.append_assoc]
    exact h source.toList
  intro cs
  induction cs generalizing l
  case nil          => rw [produce_nil]; rfl
  case cons c cs hi =>
    rw [produce_cons, run_cons, List.append_assoc, ← hi]
    rfl

end Lexer

namespace Scanner

-- What is left of a scanner when it has read its text `n` times.
def after (s : Scanner) : Nat → Scanner
  | 0     => s
  | n + 1 => s.scan.2.after n

-- A scanner that keeps nothing back hands out what its lexer completes.
theorem flatten_scans (source : String) (l : Lexer) (n : Nat) :
    (scans { source, lexer := l } n).flatten =
      l.completed (List.replicate n (Lexer.whole source)).flatten := by
  induction n generalizing l
  case zero      => rfl
  case succ n hi =>
    rw [List.replicate_succ, List.flatten_cons, Lexer.completed_whole, ← hi]
    rfl

theorem scans_succ (s : Scanner) (n : Nat) : s.scans (n + 1) = s.scans n ++ [(s.after n).scan.1] := by
  induction n generalizing s
  case zero      => rfl
  case succ n hi => rw [scans, hi, after, scans, List.cons_append]

theorem after_succ (s : Scanner) (n : Nat) : s.after (n + 1) = (s.after n).scan.2 := by
  induction n generalizing s
  case zero      => rfl
  case succ n hi => rw [after, hi, after]

-- Whatever state a scanner is in, it hands out all that it has, and the end of the text leaves a
-- lexer of the three kinds.
theorem exists_resumes_scan (s : Scanner) :
    ∃ l opening, Lexer.Resumes l opening ∧ s.scan.2 = { source := s.source, lexer := l } := by
  have ⟨opening, h⟩ := (s.lexer.run s.source.toList).1.exists_resumes_finish
  exact ⟨_, opening, h, rfl⟩

theorem exists_resumes_after (source : String) (n : Nat) :
    ∃ l opening, Lexer.Resumes l opening ∧ after { source } n = { source, lexer := l } := by
  induction n
  case zero      => exact ⟨_, _, .fresh, rfl⟩
  case succ n hi =>
    have ⟨l, _, _, h⟩ := hi
    rw [after_succ, h]
    exact exists_resumes_scan _

-- A scanner starts over either afresh or right behind a quote, and maybe a backslash after it.
theorem scans_resumed (source : String) (n : Nat) :
    let s : Scanner := { source }
    (∃ l opening, Lexer.Resumes l opening ∧ s.after n = { source, lexer := l } ∧
      (s.after n).scan.1 = tokenize (opening ++ source)) ∧
    s.scans (n + 1) = s.scans n ++ [(s.after n).scan.1] ∧
    (s.scans n).flatten = Lexer.idle.completed (List.replicate n (Lexer.whole source)).flatten := by
  intro s
  have ⟨l, opening, h, ha⟩ := exists_resumes_after source n
  refine ⟨⟨l, opening, h, ha, ?_⟩, scans_succ s n, flatten_scans source .idle n⟩
  rw [ha, ← h.scan_eq]
  rfl

-- A quote is left open and closed by turns, and an escape that is left pending is taken up.
example : scans { source := "x \"" } 3 =
    [[⟨.identifier, "x"⟩], [⟨.string, "x "⟩], [⟨.identifier, "x"⟩]] := by
  decide

example : scans { source := "\"\\" } 3 = [[], [⟨.string, "\""⟩], []] := by
  decide

end Scanner
end Polish
