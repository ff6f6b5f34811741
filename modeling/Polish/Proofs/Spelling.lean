import Polish.Proofs.Lines

namespace Polish

open Text Lexer Munch

-- The ways of writing one character between quotes.
inductive Spells : Char → List Char → Prop
  | plain   {c}   : (c ≠ '"') → (c ≠ '\\') → Spells c [c]
  | escaped {c}   : (c ∉ ['n', 't', 'r', 'f', 'v']) → Spells c ['\\', c]
  | named   {e c} : ((e, c) ∈ escapes) → Spells c ['\\', e]

-- Texts are spelled one character after the other.
inductive SpellsAll : List Char → List Char → Prop
  | nil                 : SpellsAll [] []
  | cons {c cs ds body} : (Spells c ds) → (SpellsAll cs body) → SpellsAll (c :: cs) (ds ++ body)

namespace Lexer

-- Whether a character is met outside of literals and comments. The line feed after a comment is no
-- part of it.
def isOutside : Lexer → Char → Bool
  | .literal _ _, _ => false
  | .comment,     c => c == '\n'
  | _,            _ => true

-- A separator or a parenthesis leaves nothing to be completed.
theorem feed_outside {l : Lexer} {c : Char} (ho : l.isOutside c)
    (hc : isSeparator c ∨ c = '(' ∨ c = ')') : (l.feed c).1 = idle := by
  by_cases hl : l = comment
  case pos =>
    subst hl
    rw [beq_iff_eq.mp ho]
    rfl
  case neg =>
    have hi : ¬l.isLiteral := by
      cases l
      case literal => cases ho
      all_goals nofun
    rcases hc with hc | rfl | rfl
    · rw [feed_of_endsWord hi hl (by simp [endsWord, hc]), start_separator hc]
    · rw [feed_of_endsWord hi hl rfl]
      rfl
    · rw [feed_of_endsWord hi hl rfl]
      rfl

end Lexer

-- A text after which nothing is being read: it is empty, or ends in a separator or a parenthesis
-- that is met outside of literals and comments.
inductive Rests : String → Prop
  | empty :
    Rests ""
  | after {text : String} {c : Char} :
    (isSeparator c ∨ c = '(' ∨ c = ')') → ((idle.run text.toList).1.isOutside c) →
    Rests (text.push c)

theorem Rests.run_eq {text : String} (h : Rests text) : (idle.run text.toList).1 = idle := by
  cases h
  case empty       => rfl
  case after hc ho =>
    rw [String.toList_push, run_append]
    exact feed_outside ho hc

theorem Rests.produce_append {text : String} (h : Rests text) (cs : List Char) :
    idle.produce (text.toList ++ cs) = tokenize text ++ idle.produce cs := by
  have ht : tokenize text = (idle.run text.toList).2.toList := by
    rw [tokenize_eq_produce, produce, h.run_eq]
    exact List.append_nil _
  rw [Lexer.produce_append, h.run_eq, ht]

namespace Spells

theorem unescape_escaped {c : Char} (h : c ∉ ['n', 't', 'r', 'f', 'v']) : unescape c = c := by
  simp only [List.mem_cons, List.not_mem_nil, or_false, not_or] at h
  simp [unescape, h]

theorem unescape_named {e c : Char} (h : (e, c) ∈ escapes) : unescape e = c := by
  simp only [escapes, List.mem_cons, Prod.mk.injEq, List.not_mem_nil, or_false] at h
  rcases h with ⟨rfl, rfl⟩ | ⟨rfl, rfl⟩ | ⟨rfl, rfl⟩ | ⟨rfl, rfl⟩ | ⟨rfl, rfl⟩ <;> rfl

-- However a character is spelled, reading the spelling adds the character to the literal and
-- leaves nothing escaped.
theorem produce_append {c : Char} {ds : List Char} (text : String) (cs : List Char) :
    (Spells c ds) → (literal text false).produce (ds ++ cs) = (literal (text.push c) false).produce cs
  | .plain hq he => produce_plain text hq he cs
  | .escaped h   => (produce_escape text c cs).trans (by rw [unescape_escaped h])
  | .named h     => (produce_escape text _ cs).trans (by rw [unescape_named h])

end Spells

theorem SpellsAll.produce_append {s body : List Char} (h : SpellsAll s body) (text : String)
    (cs : List Char) :
    (literal text false).produce (body ++ '"' :: cs) =
      literalTokens (text ++ .ofList s) ++ idle.produce cs := by
  induction h generalizing text
  case nil          => simpa using produce_quote text cs
  case cons hc _ hi => rw [List.append_assoc, hc.produce_append, hi, push_append]

theorem tokenize_spelled {s body text : String} (hs : s ≠ "") (hb : SpellsAll s.toList body.toList)
    (ht : Rests text) (rest : String) :
    tokenize (text ++ "\"" ++ body ++ "\"" ++ rest) =
      tokenize text ++ [⟨.string, s⟩] ++ tokenize rest := by
  have hl : literalTokens s = [⟨.string, s⟩] := by simp [literalTokens, hs]
  calc
    tokenize (text ++ "\"" ++ body ++ "\"" ++ rest)
    _ = idle.produce (text.toList ++ '"' :: (body.toList ++ '"' :: rest.toList)) := by
      rw [tokenize_eq_produce]
      simp
    _ = tokenize text ++ (literal "" false).produce (body.toList ++ '"' :: rest.toList) := by
      rw [ht.produce_append]
      rfl
    _ = tokenize text ++ ([⟨.string, s⟩] ++ tokenize rest) := by
      rw [hb.produce_append, String.empty_append, String.ofList_toList, hl, ← tokenize_eq_produce]
    _ = _ := (List.append_assoc ..).symm

-- A quote, a line feed and two more characters that would mean something outside of the literal. The
-- line feed before it ends a comment.
theorem tokenize_spelled_after_comment :
    let s := "\"\n#n"
    let body := "\\\"\\n#n"
    let text := "(+ # \"\n"
    s ≠ "" ∧ SpellsAll s.toList body.toList ∧ Rests text ∧
    tokenize (text ++ "\"" ++ body ++ "\"" ++ "x)") =
      tokenize text ++ [⟨.string, s⟩] ++ tokenize "x)" := by
  intro s body text
  have hs : s.toList = ['"', '\n', '#', 'n'] := by decide
  have hq : SpellsAll ['"', '\n', '#', 'n'] ['\\', '"', '\\', 'n', '#', 'n'] := by
    have hn : Spells '\n' ['\\', 'n'] := .named (by decide)
    have hh : SpellsAll ['#', 'n'] ['#', 'n'] :=
      .cons (.plain (by decide) (by decide)) (.cons (.plain (by decide) (by decide)) .nil)
    exact .cons (.escaped (by decide)) (.cons hn hh)
  have hb : SpellsAll s.toList body.toList := by
    have hd : body.toList = ['\\', '"', '\\', 'n', '#', 'n'] := by decide
    rwa [hs, hd]
  have ht : Rests text := by
    have hr : Rests ("(+ # \"".push '\n') := .after (by decide) (by decide)
    exact hr
  exact ⟨by decide, hb, ht, tokenize_spelled (by decide) hb ht "x)"⟩

end Polish
