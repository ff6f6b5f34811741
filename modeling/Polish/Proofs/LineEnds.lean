import Mathlib.Data.List.Infix
import Polish.Console
import Polish.Proofs.Lines

namespace Polish

namespace Script

-- The lines of a text, without what ends them: a line feed, or a carriage return and a line feed.
-- Any other carriage return is part of a line.
def lines : List Char → List (List Char)
  | []                 => []
  | '\n' :: cs         => [] :: lines cs
  | '\r' :: '\n' :: cs => [] :: lines cs
  | c :: cs            =>
    match lines cs with
    | []        => [[c]]
    | ds :: dss => (c :: ds) :: dss

theorem lines_eq_nil_iff {cs : List Char} : lines cs = [] ↔ cs = [] := by
  fun_cases lines cs <;> simp_all

theorem dropReturns_eq_nil_iff {cs : List Char} : dropReturns cs = [] ↔ cs = [] := by
  fun_cases dropReturns cs <;> simp

theorem terminate_cons {c : Char} {cs : List Char} (h : c = '\n' ∨ cs ≠ []) :
    terminate (c :: cs) = c :: terminate cs := by
  cases cs
  case nil  => rw [h.resolve_right (· rfl)]; rfl
  case cons =>
    rw [terminate, terminate, List.getLast?_cons_cons]
    split <;> rfl

-- What is loaded are the lines, each ended by a line feed.
theorem terminate_dropReturns (cs : List Char) :
    terminate (dropReturns cs) = (lines cs).flatMap (· ++ ['\n']) := by
  fun_induction lines cs
  case case1       => rfl
  case case2 cs hi =>
    rw [dropReturns, terminate_cons (.inl rfl), hi]
    · rfl
    · nofun
  case case3 cs hi =>
    rw [dropReturns, terminate_cons (.inl rfl), hi]
    rfl
  case case4 c cs _ hr hl _ =>
    rw [dropReturns, lines_eq_nil_iff.mp hl]
    · simp [dropReturns, terminate]
    · exact hr
  case case5 c cs _ hr ds dss hl hi =>
    have hn : dropReturns cs ≠ [] := by
      rw [ne_eq, dropReturns_eq_nil_iff, ← lines_eq_nil_iff, hl]
      simp
    rw [dropReturns, terminate_cons (.inr hn), hi, hl]
    · rfl
    · exact hr

end Script

namespace Lexer

-- A carriage return completes what a line feed would complete, except in a comment, where neither
-- completes anything.
theorem feed_return {l : Lexer} (h : ¬l.isLiteral) :
    ¬(l.feed '\r').1.isLiteral ∧ (l.feed '\r').2 ++ (l.feed '\r').1.finish.2 = l.finish.2 := by
  by_cases hc : l = comment
  case pos =>
    subst hc
    exact ⟨nofun, rfl⟩
  case neg =>
    rw [feed_of_endsWord h hc rfl]
    exact ⟨nofun, (List.append_nil _).trans (List.append_nil _)⟩

theorem run_return {l : Lexer} (h : ¬l.isLiteral) (cs : List Char) :
    l.run ('\r' :: '\n' :: cs) = l.run ('\n' :: cs) := by
  have ⟨hr, hf⟩ := feed_return h
  rw [run_cons, run_cons, feed_newline hr, run_cons, feed_newline h, ← hf]
  simp [← Array.toList_inj]

-- The invariant is that the carriage returns still to be dropped are met outside of literals.
theorem run_dropReturns {l : Lexer} {cs : List Char}
    (h : ∀ before, before ++ ['\r', '\n'] <+: cs → ¬(l.run before).1.isLiteral) :
    l.run (Script.dropReturns cs) = l.run cs := by
  fun_induction Script.dropReturns cs generalizing l
  case case1 cs hi =>
    have hl : ¬l.isLiteral := h [] (by simp)
    have hn := feed_newline hl
    rw [run_return hl, run_cons, run_cons, hn, hi]
    intro before hb
    have hr := h ('\r' :: '\n' :: before) (by simpa using hb)
    rwa [run_return hl, run_cons, hn] at hr
  case case2 c cs _ hi =>
    rw [run_cons, run_cons, hi]
    intro before hb
    have hr := h (c :: before) (by simpa using hb)
    rwa [run_cons] at hr
  case case3 => rfl

end Lexer

-- In a script, no line ends in a carriage return and a line feed within a literal.
def ReturnsOutside (content : String) : Prop :=
  ∀ before, before ++ ['\r', '\n'] <+: content.toList → ¬(Lexer.idle.run before).1.isLiteral

instance (content : String) : Decidable (ReturnsOutside content) :=
  decidable_of_iff
    (∀ before ∈ content.toList.inits,
      before ++ ['\r', '\n'] <+: content.toList → ¬(Lexer.idle.run before).1.isLiteral)
    ⟨fun h before hb => h before ((List.mem_inits ..).mpr ((List.prefix_append ..).trans hb)) hb,
      fun h before _ => h before⟩

theorem produce_terminate {l : Lexer} {cs : List Char} (h : ¬(l.run cs).1.isLiteral) :
    l.produce (Script.terminate cs) = l.produce cs := by
  rw [Script.terminate]
  split
  case h_1 | h_2 => rfl
  case h_3       =>
    rw [Lexer.produce_append, Lexer.produce_newline h, Lexer.produce_idle_nil, List.append_nil]
    rfl

theorem tokenize_normalize {content : String} (hr : ReturnsOutside content)
    (hc : ClosesLiterals content) : tokenize (Script.normalize content) = tokenize content := by
  have hd := Lexer.run_dropReturns hr
  have ht : ¬(Lexer.idle.run (Script.dropReturns content.toList)).1.isLiteral := hd ▸ hc
  rw [tokenize_eq_produce, Script.normalize, String.toList_ofList, produce_terminate ht]
  rw [tokenize_eq_produce, Lexer.produce, Lexer.produce, hd]

namespace Console

-- Nothing but the tokens of a source shows in a dump.
theorem dump_congr {source source' : String} (h : tokenize source = tokenize source') (view : View) :
    dump view (.ok source) = dump view (.ok source') := by
  have hv : view.dump source = view.dump source' := by
    cases view <;> simp only [View.dump, h]
  simp only [dump, Except.bind, hv]

-- Within a literal, a carriage return before a line feed is text.
theorem dumpScript_eq_dumpInput (name : String) {bytes : List UInt8} {content : String}
    (hb : Text.Utf8.decode? bytes = some content) (hr : ReturnsOutside content)
    (hc : ClosesLiterals content) :
    ∃ source, Script.load name (.ok bytes) = .ok source ∧
      source.toList = (Script.lines content.toList).flatMap (· ++ ['\n']) ∧
      tokenize source = tokenize content ∧
      ∀ view, dumpScript view name (.ok bytes) = dumpInput view bytes := by
  have hl : Script.load name (.ok bytes) = .ok (Script.normalize content) := by
    simp [Script.load, Except.bind, hb]
  have ht := tokenize_normalize hr hc
  refine ⟨Script.normalize content, hl, ?_, ht, fun view => ?_⟩
  · rw [Script.normalize, String.toList_ofList, Script.terminate_dropReturns]
  · rw [dumpScript, hl, dumpInput, hb]
    exact dump_congr ht view

-- The carriage returns end a number, stand in a comment with a quote, and end the text.
theorem dumpScript_eq_dumpInput_returns :
    let content := "(+ \"a\" 1\r\n# \"\r\r\n2)\r"
    let bytes := Text.Utf8.encode content
    Text.Utf8.decode? bytes = some content ∧ ReturnsOutside content ∧ ClosesLiterals content ∧
    ∃ source, Script.load "a" (.ok bytes) = .ok source ∧
      source.toList = (Script.lines content.toList).flatMap (· ++ ['\n']) ∧
      tokenize source = tokenize content ∧
      ∀ view, dumpScript view "a" (.ok bytes) = dumpInput view bytes := by
  intro content bytes
  have hb : Text.Utf8.decode? bytes = some content := by decide +kernel
  have hr : ReturnsOutside content := by decide +kernel
  have hc : ClosesLiterals content := by decide +kernel
  exact ⟨hb, hr, hc, dumpScript_eq_dumpInput "a" hb hr hc⟩

-- In a literal the carriage return is text, and loading loses it.
example : tokenize (Script.normalize "\"\r\n\"") = [⟨.string, "\n"⟩] ∧
    tokenize "\"\r\n\"" = [⟨.string, "\r\n"⟩] := by
  decide

end Console

end Polish
