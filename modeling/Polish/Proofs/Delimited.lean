import Polish.Number.Layout
import Polish.Proofs.MaximalMunch
import Polish.Proofs.Runs
import Polish.Text.Quoted

namespace Polish

open Text Lexer Munch

-- What may follow a token without becoming part of it.
def Delimits (rest : List Char) : Prop :=
  ∀ c ∈ rest.head?, isWordChar c = false

-- A text is read as these tokens wherever something delimits it, the end of all text included.
def ReadAs (text : List Char) (ts : List Token) : Prop :=
  ∀ rest, (Delimits rest) → idle.produce (text ++ rest) = ts ++ idle.produce rest

theorem delimits_nil : Delimits [] :=
  nofun

theorem delimits_cons {c : Char} (h : isWordChar c = false) (cs : List Char) :
    Delimits (c :: cs) := by
  simpa [Delimits] using h

theorem ReadAs.tokenize_eq {text : String} {ts : List Token} (h : ReadAs text.toList ts) :
    tokenize text = ts := by
  have := h [] delimits_nil
  rwa [List.append_nil, produce_idle_nil, List.append_nil, ← tokenize_eq_produce] at this

namespace Delimits

variable {p : Char → Bool} {cs rest : List Char}

theorem head_not (h : Delimits rest) (hp : ∀ c, p c → isWordChar c) : ∀ c ∈ rest.head?, ¬p c :=
  fun c hc => mt (hp c) (by simp [h c hc])

theorem takeWhile_append (h : Delimits rest) (hp : ∀ c, p c → isWordChar c) (hc : ∀ c ∈ cs, p c) :
    (cs ++ rest).takeWhile p = cs :=
  takeWhile_run hc (h.head_not hp)

theorem dropWhile_append (h : Delimits rest) (hp : ∀ c, p c → isWordChar c) (hc : ∀ c ∈ cs, p c) :
    (cs ++ rest).dropWhile p = rest :=
  dropWhile_run hc (h.head_not hp)

end Delimits

-- A digit, and then digits and points.
def isNumber : List Char → Bool
  | []      => false
  | c :: cs => c.isDigit && cs.all isNumeral

-- Starts like a word and goes on like one.
def isWord : List Char → Bool
  | []      => false
  | c :: cs => isWordChar c && c != '"' && !c.isDigit && cs.all isWordChar

theorem isNumber_cons_iff {c : Char} {cs : List Char} :
    isNumber (c :: cs) ↔ c.isDigit ∧ ∀ d ∈ cs, isNumeral d := by
  simp [isNumber]

theorem isWord_cons_iff {c : Char} {cs : List Char} :
    isWord (c :: cs) ↔ isWordChar c ∧ c ≠ '"' ∧ ¬c.isDigit ∧ ∀ d ∈ cs, isWordChar d := by
  simp [isWord, and_assoc]

theorem readAs_number {cs : List Char} (h : isNumber cs) : ReadAs cs [⟨.numeric, .ofList cs⟩] := by
  cases cs
  case nil       => cases h
  case cons c cs =>
    have ⟨hd, hn⟩ := isNumber_cons_iff.mp h
    intro rest hr
    rw [List.cons_append, produce_idle, start_digit hd, List.nil_append, produce_number]
    rw [hr.takeWhile_append (fun _ => isWordChar_of_isNumeral) hn]
    rw [hr.dropWhile_append (fun _ => isWordChar_of_isNumeral) hn, singleton_append]
    rfl

theorem readAs_word {cs : List Char} (h : isWord cs) : ReadAs cs (wordTokens (.ofList cs)) := by
  cases cs
  case nil       => cases h
  case cons c cs =>
    have ⟨hw, hq, hd, hc⟩ := isWord_cons_iff.mp h
    intro rest hr
    rw [List.cons_append, produce_idle, start_word hw hq hd, List.nil_append, produce_word]
    rw [hr.takeWhile_append (fun _ => id) hc, hr.dropWhile_append (fun _ => id) hc]
    rw [singleton_append]

theorem length_wordTokens_le (text : String) : (wordTokens text).length ≤ 1 := by
  rw [wordTokens_eq]
  exact List.length_filter_le ..

theorem length_literalTokens_le (text : String) : (literalTokens text).length ≤ 1 := by
  rw [literalTokens_eq]
  exact List.length_filter_le ..

theorem readAs_literal {cs body : List Char} (h : ∀ rest, cutLiteral (cs ++ rest) = (body, rest)) :
    ReadAs ('"' :: cs) (literalTokens (.ofList (unescapeAll body))) := by
  intro rest _
  have hp := produce_literal "" (cs ++ rest)
  rwa [h rest, String.empty_append] at hp

theorem isNumeral_of_isDigit {c : Char} (h : c.isDigit) : isNumeral c := by
  simp [isNumeral, h]

theorem isNumeral_of_mem_isNumber {cs : List Char} {c : Char} (h : isNumber cs) (hm : c ∈ cs) :
    isNumeral c := by
  cases cs
  case nil       => cases h
  case cons d ds =>
    have ⟨hd, hn⟩ := isNumber_cons_iff.mp h
    cases List.mem_cons.mp hm
    case inl h => exact h ▸ isNumeral_of_isDigit hd
    case inr h => exact hn c h

theorem isWordChar_of_mem_isNumber {cs : List Char} {c : Char} (h : isNumber cs) (hm : c ∈ cs) :
    isWordChar c :=
  isWordChar_of_isNumeral (isNumeral_of_mem_isNumber h hm)

theorem isNumber_append {ds cs : List Char}
    (hn : ds ≠ []) (hd : ∀ c ∈ ds, c.isDigit) (hc : ∀ c ∈ cs, isNumeral c) :
    isNumber (ds ++ cs) := by
  cases ds
  case nil       => contradiction
  case cons d ds =>
    simp only [List.forall_mem_cons] at hd
    refine isNumber_cons_iff.mpr ⟨hd.left, fun c h => ?_⟩
    cases List.mem_append.mp h
    case inl h => exact isNumeral_of_isDigit (hd.right c h)
    case inr h => exact hc c h

namespace Number

theorem Decimal.isDigit_of_mem_digits {d : Decimal} {c : Char} (h : c ∈ d.digits) : c.isDigit :=
  Nat.isDigit_of_mem_toDigits (by decide) (by decide) h

-- The digits of a fraction are filled up with zeros, so that there is one before the point.
theorem Decimal.isNumber_positional (d : Decimal) : isNumber d.positional := by
  have hz : ∀ {n c}, c ∈ List.replicate n '0' → c.isDigit := by
    intro n c h
    rw [List.eq_of_mem_replicate h]
    rfl
  rw [positional]
  split
  case isTrue =>
    refine isNumber_append Nat.toDigits_ne_nil (fun _ => isDigit_of_mem_digits) ?_
    exact fun c h => isNumeral_of_isDigit (hz h)
  case isFalse =>
    extract_lets places ds
    have hd : ∀ c ∈ ds, c.isDigit := by
      intro c h
      cases List.mem_append.mp h
      case inl h => exact hz h
      case inr h => exact isDigit_of_mem_digits h
    have hl : places < ds.length := by
      simp only [ds, List.length_append, List.length_replicate]
      omega
    refine isNumber_append ?_ (fun c h => hd c (List.mem_of_mem_take h)) ?_
    · intro h
      simp only [List.take_eq_nil_iff] at h
      grind
    · intro c h
      cases List.mem_cons.mp h
      case inl h => exact h ▸ rfl
      case inr h => exact isNumeral_of_isDigit (hd c (List.mem_of_mem_drop h))

theorem magnitude_plain (d : Decimal) : Layout.plain.magnitude d = d.positional := by
  simp [Layout.magnitude, Layout.plain]

theorem isNumber_magnitude (d : Decimal) : isNumber (Layout.plain.magnitude d) :=
  magnitude_plain d ▸ d.isNumber_positional

-- A number is written as a number of the language if it has no sign, and as a word if it has one
-- or is not finite.
theorem isNumber_or_isWord_write (x : Float) :
    isNumber (write x).toList ∨ isWord (write x).toList := by
  rw [write]
  split
  case isTrue => exact .inr (by decide)
  case isFalse =>
    split
    case isTrue  => split <;> exact .inr (by decide)
    case isFalse =>
      rw [Layout.finite, String.toList_ofList]
      split
      case isFalse => exact .inl (isNumber_magnitude _)
      case isTrue  =>
        refine .inr (isWord_cons_iff.mpr ⟨by decide, by decide, by decide, ?_⟩)
        exact fun _ => isWordChar_of_mem_isNumber (isNumber_magnitude _)

end Number

namespace Munch

theorem cutLiteral_plain {c : Char} (hq : c ≠ '"') (he : c ≠ '\\') (cs : List Char) :
    cutLiteral (c :: cs) = (c :: (cutLiteral cs).1, (cutLiteral cs).2) := by
  rw [cutLiteral]
  · exact hq
  · exact fun _ _ h => absurd h he

theorem cutLiteral_backslash (c : Char) (cs : List Char) :
    cutLiteral ('\\' :: c :: cs) = ('\\' :: c :: (cutLiteral cs).1, (cutLiteral cs).2) :=
  rfl

theorem cutLiteral_append {ds : List Char} (h : ∀ c ∈ ds, c ≠ '"' ∧ c ≠ '\\') (cs : List Char) :
    cutLiteral (ds ++ cs) = (ds ++ (cutLiteral cs).1, (cutLiteral cs).2) := by
  induction ds
  case nil          => rfl
  case cons d ds hi =>
    simp only [List.forall_mem_cons] at h
    rw [List.cons_append, cutLiteral_plain h.left.left h.left.right, hi h.right]
    rfl

end Munch

namespace Text

theorem plain_of_mem_toDigits {n : Nat} {c : Char} (h : c ∈ Nat.toDigits 16 n) :
    c ≠ '"' ∧ c ≠ '\\' := by
  have hd : ∀ d < 16, d.digitChar ≠ '"' ∧ d.digitChar ≠ '\\' := by decide
  induction n using Nat.strongRecOn
  case ind n hi =>
    rw [Nat.toDigits_eq_if (by decide)] at h
    split at h
    case isTrue hn =>
      rw [List.mem_singleton.mp h]
      exact hd n hn
    case isFalse hn =>
      cases List.mem_append.mp h
      case inl h => exact hi (n / 16) (by omega) h
      case inr h =>
        rw [List.mem_singleton.mp h]
        exact hd _ (Nat.mod_lt _ (by decide))

-- A code point is written in braces.
theorem plain_of_mem_codePoint {n : Nat} {c : Char}
    (h : c ∈ '\x7b' :: Nat.toDigits 16 n ++ ['\x7d']) : c ≠ '"' ∧ c ≠ '\\' := by
  simp only [List.mem_append, List.mem_cons, List.not_mem_nil, or_false] at h
  rcases h with (rfl | h) | rfl
  · decide
  · exact plain_of_mem_toDigits h
  · decide

-- No literal ends within an escape.
theorem cutLiteral_escape (c : Char) (cs : List Char) :
    cutLiteral (escape c ++ cs) = (escape c ++ (cutLiteral cs).1, (cutLiteral cs).2) := by
  unfold escape
  split
  case h_7 hq he =>
    split
    case isTrue  => exact cutLiteral_plain hq he cs
    case isFalse =>
      have hb := cutLiteral_backslash 'u' ('\x7b' :: Nat.toDigits 16 c.toNat ++ ['\x7d'] ++ cs)
      rw [cutLiteral_append (fun _ => plain_of_mem_codePoint) cs] at hb
      exact hb
  all_goals rfl

theorem cutLiteral_escapes (s : List Char) (rest : List Char) :
    cutLiteral (s.flatMap escape ++ '"' :: rest) = (s.flatMap escape, rest) := by
  induction s
  case nil         => rfl
  case cons c s hi => rw [List.flatMap_cons, List.append_assoc, cutLiteral_escape, hi]

theorem readAs_quote (s : String) :
    ReadAs (quote s).toList (literalTokens (.ofList (unescapeAll (s.toList.flatMap escape)))) := by
  rw [toList_quote]
  apply readAs_literal
  intro rest
  have h := cutLiteral_escapes s.toList rest
  rwa [List.append_cons] at h

end Text
end Polish
