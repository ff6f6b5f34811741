import Polish.Proofs.Lines
import Polish.Proofs.Stability

namespace Polish

open Text Munch

namespace Text

variable {text : String} {c : Char}

theorem not_isBlank_head_trim (h : c ∈ (trim text).toList.head?) : ¬isBlank c := by
  rw [toList_trim] at h
  obtain ⟨blanks, hb⟩ := isPrefix_trimEnd (trimStart text.toList)
  have hs : (trimStart text.toList).head? = some c := by
    rw [← hb, List.head?_append, h]
    rfl
  have hn := List.head?_dropWhile_not isBlank text.toList
  rw [← trimStart, hs] at hn
  simpa using hn

theorem not_isBlank_getLast_trim (h : c ∈ (trim text).toList.getLast?) : ¬isBlank c := by
  rw [toList_trim, trimEnd, List.getLast?_reverse] at h
  have hn := List.head?_dropWhile_not isBlank (trimStart text.toList).reverse
  rw [h] at hn
  simpa using hn

end Text

namespace Token

structure IsNumeral (text : String) : Prop where
  first : ∃ c ∈ text.toList.head?, c.isDigit
  only  : ∀ c ∈ text.toList, c.isDigit ∨ c = '.'

structure IsName (text : String) : Prop where
  unreserved : text ∉ Operator.all.map Operator.spelling ∧ text ≠ "null"
  unbroken   : ∀ c ∈ text.toList, c ∉ [' ', '\t', '\r', '\n', '\x0c', '(', ')', '#']
  first      : ∀ c ∈ text.toList.head?, ¬isBlank c
  last       : ∀ c ∈ text.toList.getLast?, ¬isBlank c

-- The texts that tokens of a kind may have, if any.
def Kind.Admits : Kind → String → Prop
  | .leftParen,    text => text = "("
  | .rightParen,   text => text = ")"
  | .numeric,      text => IsNumeral text
  | .operator,     text => text ∈ Operator.all.map Operator.spelling
  | .null,         text => text = "null"
  | .identifier,   text => IsName text
  | .string,       _    => True
  | .unclassified, _    => False

structure WellFormed (a : Token) : Prop where
  filled : a.text ≠ ""
  admits : a.kind.Admits a.text

theorem isNumeral_of_isNumber {text : String} (h : isNumber text.toList) : IsNumeral text where
  first := by
    cases ht : text.toList <;> rw [ht] at h
    case nil  => cases h
    case cons => exact ⟨_, rfl, (isNumber_cons_iff.mp h).left⟩
  only c hc := by simpa [isNumeral] using isNumeral_of_mem_isNumber h hc

theorem wellFormed_of_isNumber {text : String} (h : isNumber text.toList) :
    WellFormed ⟨.numeric, text⟩ where
  filled := by
    rintro rfl
    cases h
  admits := isNumeral_of_isNumber h

theorem isName_trim {text : String} (h : isWord text.toList)
    (hr : trim text ∉ Operator.all.map Operator.spelling ∧ trim text ≠ "null") :
    IsName (trim text) where
  unreserved := hr
  unbroken c hc := by
    have hw := isWordChar_of_mem_isWord h ((trim_sublist text).subset hc)
    simpa [isWordChar, isSeparator, and_assoc] using hw
  first _ := not_isBlank_head_trim
  last _  := not_isBlank_getLast_trim

theorem admits_of_wordKind {text : String} {a : Token} (h : isWord text.toList)
    (ht : a.text = trim text) (hk : a.kind = wordKind a.text) : a.kind.Admits a.text := by
  rw [hk, wordKind]
  split
  case isTrue ho  => exact ho
  case isFalse ho =>
    split
    case isTrue hn  => exact hn
    case isFalse hn =>
      rw [ht] at ho hn ⊢
      exact isName_trim h ⟨ho, hn⟩

theorem wellFormed_of_mem_wordTokens {text : String} (h : isWord text.toList) :
    ∀ a ∈ Lexer.wordTokens text, a.WellFormed := by
  intro a ha
  rw [wordTokens_eq, List.mem_filter, List.mem_singleton] at ha
  have ⟨ha, hn⟩ := ha
  have ht : a.text = trim text := by rw [ha]
  have hk : a.kind = wordKind a.text := by rw [ha]
  exact ⟨by simpa using hn, admits_of_wordKind h ht hk⟩

theorem wellFormed_of_mem_literalTokens {text : String} :
    ∀ a ∈ Lexer.literalTokens text, a.WellFormed := by
  intro a ha
  rw [literalTokens_eq, List.mem_filter, List.mem_singleton] at ha
  obtain ⟨rfl, ht⟩ := ha
  exact ⟨by simpa using ht, trivial⟩

end Token

namespace Lexer

-- What is being built is of its kind as far as it goes. A literal may have any text.
inductive Sound : Lexer → Prop
  | idle                   : Sound .idle
  | comment                : Sound .comment
  | number  {text}         : (isNumber text.toList) → Sound (.number text)
  | word    {text}         : (isWord text.toList) → Sound (.word text)
  | literal {text escaped} : Sound (.literal text escaped)

-- A lexer as it is left, and the tokens that were completed on the way.
structure SoundWith (l : Lexer) (ts : List Token) : Prop where
  sound      : l.Sound
  wellFormed : ∀ a ∈ ts, a.WellFormed

variable {l : Lexer} {ts us : List Token} {text : String} {c : Char}

theorem SoundWith.append (h : l.SoundWith us) (ht : ∀ a ∈ ts, a.WellFormed) :
    l.SoundWith (ts ++ us) where
  sound      := h.sound
  wellFormed := List.forall_mem_append.mpr ⟨ht, h.wellFormed⟩

theorem Sound.silent (h : l.Sound) : l.SoundWith [] where
  sound      := h
  wellFormed := nofun

theorem isNumber_push (h : isNumber text.toList) (hc : isNumeral c) :
    isNumber (text.push c).toList := by
  rw [String.toList_push]
  cases ht : text.toList <;> rw [ht] at h
  case nil  => cases h
  case cons =>
    have ⟨hd, hn⟩ := isNumber_cons_iff.mp h
    exact isNumber_cons_iff.mpr ⟨hd, List.forall_mem_append.mpr ⟨hn, by simpa using hc⟩⟩

theorem isWord_push (h : isWord text.toList) (hc : isWordChar c) : isWord (text.push c).toList := by
  rw [String.toList_push]
  cases ht : text.toList <;> rw [ht] at h
  case nil  => cases h
  case cons =>
    have ⟨hw, hq, hd, hs⟩ := isWord_cons_iff.mp h
    exact isWord_cons_iff.mpr ⟨hw, hq, hd, List.forall_mem_append.mpr ⟨hs, by simpa using hc⟩⟩

theorem soundWith_start (c : Char) : (start c).next.SoundWith (start c).tokens := by
  unfold start
  split
  case isTrue hd => exact Sound.number (by simpa [isNumber] using hd) |>.silent
  case isFalse hd =>
    split
    case isTrue hs  => exact Sound.idle.silent
    case isFalse hs =>
      split
      case h_1 => exact ⟨.idle, List.forall_mem_singleton.mpr ⟨by decide, rfl⟩⟩
      case h_2 => exact ⟨.idle, List.forall_mem_singleton.mpr ⟨by decide, rfl⟩⟩
      case h_3 => exact Sound.literal.silent
      case h_4 => exact Sound.comment.silent
      case h_5 hl hr hq hc =>
        have hw := isWordChar_iff.mpr ⟨hs, hl, hr, hc⟩
        have hw := isWord_cons_iff.mpr ⟨hw, hq, hd, List.forall_mem_nil _⟩
        exact Sound.word (by simpa using hw) |>.silent

-- One character. The cases are those of what is being built.
theorem Sound.offer (h : l.Sound) (c : Char) : (l.offer c).next.SoundWith (l.offer c).tokens := by
  cases h
  case idle    => exact soundWith_start c
  case comment =>
    rw [Lexer.offer]
    split
    case isTrue  => exact Sound.idle.silent
    case isFalse => exact Sound.comment.silent
  case number text h =>
    rw [Lexer.offer]
    split
    case isTrue hc => exact Sound.number (isNumber_push h hc) |>.silent
    case isFalse   =>
      exact ⟨.idle, List.forall_mem_singleton.mpr (Token.wellFormed_of_isNumber h)⟩
  case word text h =>
    rw [Lexer.offer]
    split
    case isTrue     =>
      dsimp only
      exact ⟨.idle, Token.wellFormed_of_mem_wordTokens h⟩
    case isFalse hc => exact Sound.word (isWord_push h (by simpa [endsWord_eq] using hc)) |>.silent
  case literal text escaped =>
    cases escaped
    case true  => exact Sound.literal.silent
    case false =>
      rw [Lexer.offer]
      split
      case isTrue  => exact Sound.literal.silent
      case isFalse =>
        split
        case isTrue  => exact ⟨.idle, Token.wellFormed_of_mem_literalTokens⟩
        case isFalse => exact Sound.literal.silent

theorem Sound.feed (h : l.Sound) (c : Char) : (l.feed c).1.SoundWith (l.feed c).2 := by
  have ho := h.offer c
  rw [Lexer.feed]
  split
  case isTrue  => exact (ho.sound.offer c).append ho.wellFormed
  case isFalse => exact ho

theorem Sound.finish (h : l.Sound) : l.finish.1.SoundWith l.finish.2 := by
  cases h
  case idle | comment => exact Sound.idle.silent
  case number h       =>
    exact ⟨.idle, List.forall_mem_singleton.mpr (Token.wellFormed_of_isNumber h)⟩
  case word h         =>
    dsimp only [Lexer.finish]
    exact ⟨.idle, Token.wellFormed_of_mem_wordTokens h⟩
  case literal        =>
    rw [Lexer.finish]
    split
    case isTrue  => exact Sound.literal.silent
    case isFalse => exact ⟨.idle, Token.wellFormed_of_mem_literalTokens⟩

theorem Sound.run (h : l.Sound) (cs : List Char) : (l.run cs).1.SoundWith (l.run cs).2.toList := by
  induction cs generalizing l
  case nil          => exact h.silent
  case cons c cs hi =>
    have hf := h.feed c
    rw [run_cons, Array.toList_append]
    exact (hi hf.sound).append hf.wellFormed

theorem Sound.scan (h : l.Sound) (source : String) :
    (l.scan source).2.SoundWith (l.scan source).1 := by
  have hr := h.run source.toList
  have hf := hr.sound.finish.append hr.wellFormed
  simpa [Lexer.scan] using hf

end Lexer

namespace Scanner

-- What a scanner is in the middle of, and what it has not handed out.
def Sound (s : Scanner) : Prop :=
  s.lexer.SoundWith s.tokens

variable {s : Scanner}

theorem Sound.scan (h : s.Sound) : s.scan.2.Sound ∧ ∀ a ∈ s.scan.1, a.WellFormed := by
  have hs := h.sound.scan s.source
  exact ⟨hs.sound.silent, (hs.append h.wellFormed).wellFormed⟩

theorem Sound.scans (h : s.Sound) (n : Nat) : ∀ ts ∈ s.scans n, ∀ a ∈ ts, a.WellFormed := by
  induction n generalizing s
  case zero      => exact nofun
  case succ n hi => exact List.forall_mem_cons.mpr ⟨h.scan.right, hi h.scan.left⟩

-- What a lexer is building stays a number or a word with each character, so it does not matter what
-- completes it.
theorem wellFormed_of_mem_scans (source : String) (n : Nat) :
    ∀ ts ∈ scans { source } n, ∀ a ∈ ts, a.WellFormed :=
  Sound.scans (s := { source }) Lexer.Sound.idle.silent n

-- What is a literal at first is taken up behind the quote that was left open, and makes a name.
theorem wellFormed_of_mem_scans_name :
    scans { source := "\"\u00a0a\" \"" } 2 = [[⟨.string, "\u00a0a"⟩], [⟨.identifier, "a\""⟩]] ∧
    Token.WellFormed ⟨.identifier, "a\""⟩ := by
  have h : scans { source := "\"\u00a0a\" \"" } 2 =
      [[⟨.string, "\u00a0a"⟩], [⟨.identifier, "a\""⟩]] := by
    decide
  have hm : [⟨.identifier, "a\""⟩] ∈ scans { source := "\"\u00a0a\" \"" } 2 := by
    rw [h]
    simp
  exact ⟨h, wellFormed_of_mem_scans _ 2 _ hm _ (List.mem_singleton_self _)⟩

end Scanner
end Polish
