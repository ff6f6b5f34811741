import Polish.Token.Lexer

namespace Polish

open Text

namespace Munch

-- The characters of a number after its first digit.
def isNumeral (c : Char) : Bool :=
  c.isDigit || c == '.'

-- The characters of a word after its first character.
def isWordChar (c : Char) : Bool :=
  !isSeparator c && c != '(' && c != ')' && c != '#'

-- What follows an opening quote, cut at the next quote that is not escaped. Without such a quote
-- the first part is all there is.
def cutLiteral : List Char → List Char × List Char
  | []              => ([], [])
  | '"' :: cs       => ([], cs)
  | '\\' :: c :: cs => ('\\' :: c :: (cutLiteral cs).1, (cutLiteral cs).2)
  | c :: cs         => (c :: (cutLiteral cs).1, (cutLiteral cs).2)

-- The escapes that do not stand for the escaped character itself.
def escapes : List (Char × Char) :=
  [('n', '\n'), ('t', '\t'), ('r', '\r'), ('f', '\x0c'), ('v', '\x0b')]

-- The characters that a literal stands for. A backslash at the very end stands for none.
def unescapeAll : List Char → List Char
  | []              => []
  | ['\\']          => []
  | '\\' :: c :: cs => (escapes.lookup c).getD c :: unescapeAll cs
  | c :: cs         => c :: unescapeAll cs

def wordKind (text : String) : Token.Kind :=
  if text ∈ Operator.all.map Operator.spelling then .operator
  else if text = "null" then .null
  else .identifier

theorem length_cutLiteral_le (cs : List Char) : (cutLiteral cs).2.length ≤ cs.length := by
  fun_induction cutLiteral cs <;> grind

-- The tokens of a text, empty ones included.
def lexemes : List Char → List Token
  | []      => []
  | c :: cs =>
    if isSeparator c then
      lexemes cs
    else if c = '#' then
      lexemes (cs.dropWhile (· != '\n'))
    else if c = '(' then
      ⟨.leftParen, "("⟩ :: lexemes cs
    else if c = ')' then
      ⟨.rightParen, ")"⟩ :: lexemes cs
    else if c = '"' then
      ⟨.string, .ofList (unescapeAll (cutLiteral cs).1)⟩ :: lexemes (cutLiteral cs).2
    else if c.isDigit then
      ⟨.numeric, .ofList (c :: cs.takeWhile isNumeral)⟩ :: lexemes (cs.dropWhile isNumeral)
    else
      let text := trim (.ofList (c :: cs.takeWhile isWordChar))
      ⟨wordKind text, text⟩ :: lexemes (cs.dropWhile isWordChar)
termination_by cs => cs.length
decreasing_by
  all_goals
    have := length_cutLiteral_le cs
    have := fun p => (List.dropWhile_sublist p (l := cs)).length_le
    grind

def tokens (source : String) : List Token :=
  (lexemes source.toList).filter (·.text ≠ "")

end Munch

namespace Lexer

-- The tokens that a lexer produces from here to the end of a text.
def produce (l : Lexer) (cs : List Char) : List Token :=
  (l.run cs).2.toList ++ (l.run cs).1.finish.2

theorem produce_nil (l : Lexer) : l.produce [] = l.finish.2 := by
  simp [produce, run, runFrom]

theorem produce_cons (l : Lexer) (c : Char) (cs : List Char) :
    l.produce (c :: cs) = (l.feed c).2 ++ (l.feed c).1.produce cs := by
  have h : l.run (c :: cs) = (l.feed c).1.runFrom (#[] ++ (l.feed c).2) cs := rfl
  rw [produce, h, runFrom_eq_run]
  simp [produce]

theorem produce_of_read {l : Lexer} {c : Char} (h : (l.offer c).again = false) (cs : List Char) :
    l.produce (c :: cs) = (l.offer c).tokens ++ (l.offer c).next.produce cs := by
  simp [produce_cons, feed, h]

theorem produce_idle_nil : idle.produce [] = [] :=
  rfl

theorem produce_idle (c : Char) (cs : List Char) :
    idle.produce (c :: cs) = (start c).tokens ++ (start c).next.produce cs :=
  produce_of_read (l := idle) (not_again_start c) cs

-- A character that is offered again might as well have been met by an idle lexer.
theorem produce_of_again {l : Lexer} {c : Char} (h : (l.offer c).again) (cs : List Char) :
    l.produce (c :: cs) = (l.offer c).tokens ++ idle.produce (c :: cs) := by
  rw [produce_idle, produce_cons, feed, if_pos h, offer_next_of_again h, offer, List.append_assoc]

end Lexer

theorem tokenize_eq_produce (source : String) :
    tokenize source = Lexer.idle.produce source.toList := by
  simp [tokenize, Lexer.scan, Lexer.produce]

namespace Munch

open Lexer

theorem produce_comment (cs : List Char) :
    comment.produce cs = idle.produce (cs.dropWhile (· != '\n')) := by
  induction cs
  case nil          => rfl
  case cons c cs hi =>
    rw [produce_of_read rfl, List.dropWhile_cons]
    by_cases hc : c = '\n'
    case pos =>
      subst hc
      exact (produce_idle '\n' cs).symm
    case neg => simpa [offer, hc] using hi

theorem push_append (text : String) (c : Char) (cs : List Char) :
    text.push c ++ .ofList cs = text ++ .ofList (c :: cs) := by
  simp [← String.toList_inj]

theorem produce_number (text : String) (cs : List Char) :
    (number text).produce cs =
      ⟨.numeric, text ++ .ofList (cs.takeWhile isNumeral)⟩ ::
      idle.produce (cs.dropWhile isNumeral) := by
  induction cs generalizing text
  case nil          => simp [produce_nil, finish]
  case cons c cs hi =>
    by_cases hc : isNumeral c
    case pos =>
      have ho : (number text).offer c = { next := .number (text.push c) } := if_pos hc
      rw [produce_of_read (by rw [ho]), ho, hi, push_append]
      simp [hc]
    case neg =>
      have ho : (number text).offer c =
        { next := .idle, tokens := [⟨.numeric, text⟩], again := true } := if_neg hc
      rw [produce_of_again (by rw [ho]), ho]
      simp [hc]

theorem endsWord_eq (c : Char) : endsWord c = !isWordChar c := by
  simp [endsWord, isWordChar, bne]

theorem produce_word (text : String) (cs : List Char) :
    (word text).produce cs =
      wordTokens (text ++ .ofList (cs.takeWhile isWordChar)) ++
      idle.produce (cs.dropWhile isWordChar) := by
  induction cs generalizing text
  case nil          => simp [produce_nil, finish]
  case cons c cs hi =>
    by_cases hc : isWordChar c
    case pos =>
      have ho : (word text).offer c = { next := .word (text.push c) } := by
        simp [offer, endsWord_eq, hc]
      rw [produce_of_read (by rw [ho]), ho, hi, push_append]
      simp [hc]
    case neg =>
      have ho : (word text).offer c =
          { next := .idle, tokens := wordTokens text, again := true } := by
        simp [offer, endsWord_eq, hc]
      rw [produce_of_again (by rw [ho]), ho]
      simp [hc]

theorem lookup_escapes (c : Char) : (escapes.lookup c).getD c = unescape c := by
  simp only [escapes, List.lookup_cons, List.lookup_nil, unescape]
  grind

theorem produce_literal_end (text : String) (escaped : Bool) :
    (literal text escaped).produce [] = literalTokens text := by
  rw [produce_nil, finish, literalTokens]
  split <;> rfl

theorem produce_quote (text : String) (cs : List Char) :
    (literal text false).produce ('"' :: cs) = literalTokens text ++ idle.produce cs :=
  produce_of_read rfl cs

theorem produce_escape (text : String) (c : Char) (cs : List Char) :
    (literal text false).produce ('\\' :: c :: cs) =
      (literal (text.push (unescape c)) false).produce cs := by
  rw [produce_of_read rfl, produce_of_read rfl]
  rfl

theorem produce_plain (text : String) {c : Char} (hq : c ≠ '"') (he : c ≠ '\\') (cs : List Char) :
    (literal text false).produce (c :: cs) = (literal (text.push c) false).produce cs := by
  have ho : (literal text false).offer c = { next := .literal (text.push c) false } := by
    simp [offer, hq, he]
  rw [produce_of_read (by rw [ho]), ho]
  rfl

theorem unescapeAll_cons {c : Char} (hc : c ≠ '\\') (cs : List Char) :
    unescapeAll (c :: cs) = c :: unescapeAll cs := by
  rw [unescapeAll]
  · exact fun h => absurd h hc
  · exact fun _ _ h => absurd h hc

theorem produce_literal (text : String) (cs : List Char) :
    (literal text false).produce cs =
      literalTokens (text ++ .ofList (unescapeAll (cutLiteral cs).1)) ++
      idle.produce (cutLiteral cs).2 := by
  fun_induction cutLiteral cs generalizing text
  case case1         => simp [produce_literal_end, unescapeAll, produce_idle_nil]
  case case2 cs      => simp [produce_quote, unescapeAll]
  case case3 c cs hi =>
    rw [produce_escape, hi, push_append, ← lookup_escapes]
    rfl
  case case4 c cs hq he hi =>
    by_cases hc : c = '\\'
    case neg =>
      rw [produce_plain text hq hc, hi, push_append, unescapeAll_cons hc]
    -- A backslash that no character follows.
    case pos =>
      cases cs
      case cons => exact absurd rfl (he _ _ hc)
      case nil  =>
        subst hc
        rw [produce_of_read rfl]
        simp [offer, produce_literal_end, cutLiteral, unescapeAll, produce_idle_nil]

-- Whether a token is kept.
abbrev hasText (token : Token) : Bool :=
  token.text ≠ ""

theorem ofWord_eq (text : String) : Token.ofWord text = ⟨wordKind text, text⟩ := by
  have h : (Operator.ofSpelling? text).isSome ↔ text ∈ Operator.all.map Operator.spelling := by
    simp [Operator.ofSpelling?]
  simp only [Token.ofWord, wordKind, h, Token.keyword?]
  split
  case isTrue  => rfl
  case isFalse => split <;> rfl

theorem wordTokens_eq (text : String) :
    wordTokens text = [⟨wordKind (trim text), trim text⟩].filter hasText := by
  rw [wordTokens, ofWord_eq]
  by_cases h : trim text = "" <;> simp [h]

theorem literalTokens_eq (text : String) :
    literalTokens text = [⟨.string, text⟩].filter hasText := by
  rw [literalTokens]
  by_cases h : text = "" <;> simp [h]

theorem start_separator {c : Char} (h : isSeparator c) : start c = { next := .idle } := by
  simp only [isSeparator, Bool.or_eq_true, beq_iff_eq] at h
  rcases h with (((rfl | rfl) | rfl) | rfl) | rfl <;> rfl

theorem start_digit {c : Char} (h : c.isDigit) : start c = { next := .number (.singleton c) } :=
  if_pos h

theorem isWordChar_iff {c : Char} :
    isWordChar c ↔ ¬isSeparator c ∧ c ≠ '(' ∧ c ≠ ')' ∧ c ≠ '#' := by
  simp [isWordChar, and_assoc]

theorem isWordChar_of_isNumeral {c : Char} (h : isNumeral c) : isWordChar c := by
  refine isWordChar_iff.mpr ⟨fun hs => ?_, ?_, ?_, ?_⟩
  · simp only [isSeparator, Bool.or_eq_true, beq_iff_eq] at hs
    rcases hs with (((rfl | rfl) | rfl) | rfl) | rfl <;> exact absurd h (by decide)
  all_goals
    rintro rfl
    exact absurd h (by decide)

theorem start_word {c : Char} (hw : isWordChar c) (hq : c ≠ '"') (hd : ¬c.isDigit) :
    start c = { next := .word (.singleton c) } := by
  have ⟨hs, hl, hr, hc⟩ := isWordChar_iff.mp hw
  rw [start, if_neg hd, if_neg hs]
  all_goals assumption

theorem singleton_append (c : Char) (cs : List Char) :
    String.singleton c ++ .ofList cs = .ofList (c :: cs) := by
  simp

-- The cases are those of `lexemes`, one for each kind of first character.
theorem produce_idle_eq (cs : List Char) :
    idle.produce cs = (lexemes cs).filter hasText := by
  fun_induction lexemes cs
  case case1 => rfl
  case case2 c cs hs hi =>
    rw [produce_idle, start_separator hs]
    exact hi
  case case3 cs hs hi =>
    rw [← hi, ← produce_comment]
    exact produce_idle '#' cs
  case case4 cs hs hc hi =>
    rw [List.filter_cons_of_pos (by decide), ← hi]
    exact produce_idle '(' cs
  case case5 cs hs hc hl hi =>
    rw [List.filter_cons_of_pos (by decide), ← hi]
    exact produce_idle ')' cs
  case case6 cs hs hc hl hr hi =>
    have h := produce_literal "" cs
    rw [String.empty_append, literalTokens_eq, hi, ← List.filter_append] at h
    exact h
  case case7 c cs hs hc hl hr hq hd hi =>
    have ht : hasText ⟨.numeric, .ofList (c :: cs.takeWhile isNumeral)⟩ := by simp
    rw [List.filter_cons_of_pos ht, ← hi, produce_idle, start_digit hd]
    rw [List.nil_append, produce_number, singleton_append]
  case case8 c cs hs hc hl hr hq hd text hi =>
    have hw := isWordChar_iff.mpr ⟨hs, hl, hr, hc⟩
    rw [produce_idle, start_word hw hq hd, List.nil_append, produce_word, hi]
    rw [singleton_append, wordTokens_eq, ← List.filter_append]
    rfl

end Munch

-- Cutting a text into longest runs looks ahead; the lexer sees one character at a time.
theorem tokenize_eq_munch (source : String) : tokenize source = Munch.tokens source := by
  rw [tokenize_eq_produce, Munch.produce_idle_eq]
  rfl

-- A comment ends a word, a quote does not, and the end of the text ends a literal.
example : tokenize "1.2.x\"y\"#z\n\"a\\nb\\" =
    [⟨.numeric, "1.2."⟩, ⟨.identifier, "x\"y\""⟩, ⟨.string, "a\nb"⟩] := by
  decide

end Polish
