import Mathlib.Data.List.DropRight
import Polish.Proofs.RoundTrip

namespace Polish

open Lexer Munch

namespace Text

theorem isPrefix_trimEnd (cs : List Char) : trimEnd cs <+: cs :=
  List.rdropWhile_prefix isBlank cs

theorem trimStart_trimStart (cs : List Char) : trimStart (trimStart cs) = trimStart cs :=
  List.dropWhile_idempotent isBlank cs

theorem trimEnd_trimEnd (cs : List Char) : trimEnd (trimEnd cs) = trimEnd cs :=
  List.rdropWhile_idempotent isBlank cs

-- Trimming the end of a text leaves no blank at its start if there was none.
theorem trimStart_of_prefix {cs ds : List Char} (h : cs <+: ds) (hd : trimStart ds = ds) :
    trimStart cs = cs := by
  apply List.dropWhile_eq_self_iff.mpr
  intro hl
  rw [h.getElem]
  exact List.dropWhile_eq_self_iff.mp hd (Nat.lt_of_lt_of_le hl h.length_le)

theorem trim_trim (s : String) : trim (trim s) = trim s := by
  have h := trimStart_of_prefix (isPrefix_trimEnd _) (trimStart_trimStart s.toList)
  rw [← String.toList_inj, toList_trim, toList_trim, h, trimEnd_trimEnd]

theorem head_trim {c : Char} (h : ¬isBlank c) (cs : List Char) :
    (trim (.ofList (c :: cs))).toList.head? = some c := by
  have hs : trimStart (c :: cs) = c :: cs := List.dropWhile_cons_of_neg h
  have hp := isPrefix_trimEnd (c :: cs)
  have hn : trimEnd (c :: cs) ≠ [] := by
    intro hn
    have := List.rdropWhile_eq_nil_iff.mp hn c (by simp)
    contradiction
  rw [toList_trim, String.toList_ofList, hs]
  rw [List.head?_eq_some_head hn, hp.head hn]
  rfl

end Text

open Text

namespace Munch

-- What the tokens of a text are, one case for each kind of first character.
inductive Cut (cs : List Char) : Token → Prop
  | left           : Cut cs ⟨.leftParen, "("⟩
  | right          : Cut cs ⟨.rightParen, ")"⟩
  | literal {text} : Cut cs ⟨.string, text⟩
  | number  {text} : (isNumber text.toList) → Cut cs ⟨.numeric, text⟩
  | word    {w a}  : (isWord w.toList) → (w.toList ⊆ cs) → (a.text = trim w) →
    (a.kind = wordKind a.text) → Cut cs a

theorem Cut.suffix {cs ds : List Char} {a : Token} (hs : ds <:+ cs) : (Cut ds a) → Cut cs a
  | .left             => .left
  | .right            => .right
  | .literal          => .literal
  | .number h         => .number h
  | .word hw hc ht hk => .word hw (List.Subset.trans hc hs.subset) ht hk

theorem cut_of_mem_lexemes {cs : List Char} {a : Token} (h : a ∈ lexemes cs) : Cut cs a := by
  fun_induction lexemes cs
  case case1 => cases h
  case case2 c cs _ hi =>
    exact hi h |>.suffix (List.suffix_cons ..)
  case case3 cs _ hi =>
    exact hi h |>.suffix <| (List.dropWhile_suffix _).trans (List.suffix_cons ..)
  all_goals cases List.mem_cons.mp h
  case case4.inl h => exact h ▸ .left
  case case5.inl h => exact h ▸ .right
  case case6.inl h => exact h ▸ .literal
  case case7.inl c cs hs hc hl hr hq hd hi h =>
    have hn : ∀ d ∈ cs.takeWhile isNumeral, isNumeral d := fun _ => List.mem_takeWhile_imp
    have hn := isNumber_cons_iff.mpr ⟨hd, hn⟩
    exact h ▸ .number (String.toList_ofList ▸ hn)
  case case8.inl c cs hs hc hl hr hq hd text hi h =>
    have hw := isWordChar_iff.mpr ⟨hs, hl, hr, hc⟩
    have ht : ∀ d ∈ cs.takeWhile isWordChar, isWordChar d := fun _ => List.mem_takeWhile_imp
    have hw := isWord_cons_iff.mpr ⟨hw, hq, hd, ht⟩
    have hc := List.cons_subset_cons c (List.takeWhile_subset (l := cs) isWordChar)
    have ht : a.text = text := by rw [h]
    have hk : a.kind = wordKind a.text := by rw [h]
    exact .word (String.toList_ofList ▸ hw) (String.toList_ofList ▸ hc) ht hk
  case case4.inr hi h | case5.inr hi h =>
    exact hi h |>.suffix (List.suffix_cons ..)
  case case6.inr hi h =>
    exact hi h |>.suffix <| (cutLiteral_suffix _).trans (List.suffix_cons ..)
  case case7.inr hi h | case8.inr hi h =>
    exact hi h |>.suffix <| (List.dropWhile_suffix _).trans (List.suffix_cons ..)

-- Whether a text begins like a number or a quoted literal.
def opensLiteral (text : String) : Bool :=
  text.toList.head?.any fun c => c.isDigit || c == '"'

theorem opensLiteral_of_head {text : String} {c : Char} (h : text.toList.head? = some c) :
    opensLiteral text ↔ c.isDigit ∨ c = '"' := by
  simp [opensLiteral, h]

theorem isWordChar_of_mem_isWord {w : List Char} {c : Char} (h : isWord w) (hc : c ∈ w) :
    isWordChar c := by
  cases w
  case nil       => cases hc
  case cons d ds =>
    have ⟨hd, _, _, hs⟩ := isWord_cons_iff.mp h
    cases List.mem_cons.mp hc
    case inl h => exact h ▸ hd
    case inr h => exact hs c h

theorem isWord_iff_not_opensLiteral {text : String} (hn : text ≠ "")
    (hc : ∀ c ∈ text.toList, isWordChar c) : isWord text.toList ↔ ¬opensLiteral text := by
  cases ht : text.toList
  case nil       => exact absurd (String.toList_eq_nil_iff.mp ht) hn
  case cons c cs =>
    have hh : text.toList.head? = some c := ht ▸ rfl
    have ⟨hc, hs⟩ := List.forall_mem_cons.mp (ht ▸ hc)
    rw [isWord_cons_iff, opensLiteral_of_head hh, not_or]
    exact ⟨fun ⟨_, hq, hd, _⟩ => ⟨hd, hq⟩, fun ⟨hd, hq⟩ => ⟨hc, hq, hd, hs⟩⟩

-- No reserved word begins like a number or a literal.
theorem isWord_of_wordKind {text : String} (h : wordKind text ≠ .identifier) :
    isWord text.toList := by
  have hs : ∀ op ∈ Operator.all, isWord op.spelling.toList := by decide +kernel
  rw [wordKind] at h
  split at h
  case isTrue ht =>
    obtain ⟨op, ho, hop⟩ := List.mem_map.mp ht
    exact hop ▸ hs op ho
  case isFalse =>
    split at h
    case isTrue ht => subst ht; decide
    case isFalse   => exact absurd rfl h

theorem tokenize_word {text : String} (hw : isWord text.toList) (ht : trim text = text) :
    tokenize text = [⟨wordKind text, text⟩] := by
  have hn : text ≠ "" := by
    rintro rfl
    cases hw
  have hr := readAs_word hw
  rw [String.ofList_toList, wordTokens_eq, ht, List.filter_cons_of_pos (by simpa using hn)] at hr
  exact hr.tokenize_eq

-- A name that is read as itself contains itself as a word.
theorem isWord_of_tokenize {text : String} (h : tokenize text = [⟨.identifier, text⟩]) :
    isWord text.toList := by
  have hm : ⟨.identifier, text⟩ ∈ tokenize text := h ▸ List.mem_singleton_self _
  exact isWord_of_hasWord <| hasWord_of_mem_lexemes (mem_lexemes_of_mem_tokenize hm) rfl

theorem tokenize_trim_iff {w : String} {a : Token} (hw : isWord w.toList) (hn : a.text ≠ "")
    (ht : a.text = trim w) (hk : a.kind = wordKind a.text) :
    tokenize a.text = [a] ↔ ¬(a.kind = .identifier ∧ opensLiteral a.text) := by
  have hc : ∀ c ∈ a.text.toList, isWordChar c :=
    fun c hc => isWordChar_of_mem_isWord hw ((trim_sublist w).subset (ht ▸ hc))
  have ho := isWord_iff_not_opensLiteral hn hc
  have ha : ⟨wordKind a.text, a.text⟩ = a := by rw [← hk]
  constructor
  case mp =>
    intro h ⟨hi, hl⟩
    rw [← ha, ← hk, hi] at h
    exact ho.mp (isWord_of_tokenize h) hl
  case mpr =>
    intro h
    have hi : isWord a.text.toList := by
      by_cases hi : a.kind = .identifier
      case pos => exact ho.mpr fun hl => h ⟨hi, hl⟩
      case neg => exact isWord_of_wordKind (hk ▸ hi)
    rw [tokenize_word hi (ht ▸ trim_trim w), ha]

-- Trimming a word that begins with no blank leaves its first character.
theorem not_opensLiteral_trim {w : String} (hw : isWord w.toList)
    (hb : ∀ c ∈ w.toList, isBlank c → isSeparator c) : ¬opensLiteral (trim w) := by
  cases ht : w.toList <;> rw [ht] at hw hb
  case nil       => cases hw
  case cons c cs =>
    have ⟨hc, hq, hd, _⟩ := isWord_cons_iff.mp hw
    have hc : ¬isBlank c := fun h => (isWordChar_iff.mp hc).left (hb c (by simp) h)
    have hh := head_trim hc cs
    rw [← ht, String.ofList_toList] at hh
    rw [opensLiteral_of_head hh, not_or]
    exact ⟨hd, hq⟩

end Munch

theorem text_ne_of_mem_tokenize {source : String} {a : Token} (h : a ∈ tokenize source) :
    a.text ≠ "" := by
  rw [tokenize_eq_produce, produce_idle_eq] at h
  simpa using (List.mem_filter.mp h).right

-- A name comes to begin like a number or a literal only by trimming: the word began with a blank that
-- separates nothing, and this blank decided what the word is.
theorem tokenize_text_iff {source : String} {a : Token} (ha : a ∈ tokenize source)
    (hk : a.kind ≠ .string) :
    (tokenize a.text = [a] ↔ ¬(a.kind = .identifier ∧ opensLiteral a.text)) ∧
    ((∀ c ∈ source.toList, isBlank c → isSeparator c) → tokenize a.text = [a]) := by
  cases cut_of_mem_lexemes (mem_lexemes_of_mem_tokenize ha)
  case left =>
    have h : tokenize "(" = [⟨.leftParen, "("⟩] := by decide
    simp [h]
  case right =>
    have h : tokenize ")" = [⟨.rightParen, ")"⟩] := by decide
    simp [h]
  case literal => contradiction
  case number text hd =>
    have h := String.ofList_toList ▸ (readAs_number hd).tokenize_eq
    simp [h]
  case word w hw hs ht hk =>
    have h := tokenize_trim_iff hw (text_ne_of_mem_tokenize ha) ht hk
    refine ⟨h, fun hb => h.mpr fun ⟨_, hl⟩ => ?_⟩
    exact not_opensLiteral_trim hw (fun c hc => hb c (hs hc)) (ht ▸ hl)

theorem tokenize_text_of_quote_in_name :
    ⟨.identifier, "x\"1"⟩ ∈ tokenize "(sin x\"1 \"y\")" ∧
    tokenize "x\"1" = [⟨.identifier, "x\"1"⟩] := by
  have h : ⟨.identifier, "x\"1"⟩ ∈ tokenize "(sin x\"1 \"y\")" := by decide
  exact ⟨h, tokenize_text_iff h (by decide) |>.left.mpr (by decide)⟩

-- A no-break space begins a word, and nothing is left of it in the text.
theorem tokenize_no_break_space :
    tokenize "\u00a05" = [⟨.identifier, "5"⟩] ∧ tokenize "5" = [⟨.numeric, "5"⟩] ∧
    ¬∀ source, ∀ a ∈ tokenize source, a.kind ≠ .string → tokenize a.text = [a] := by
  have h : tokenize "\u00a05" = [⟨.identifier, "5"⟩] := by decide
  have h5 : tokenize "5" = [⟨.numeric, "5"⟩] := by decide
  refine ⟨h, h5, fun hs => ?_⟩
  have hi := hs "\u00a05" ⟨.identifier, "5"⟩ (h ▸ List.mem_singleton_self _) (by decide)
  exact absurd (h5.symm.trans hi) (by decide)

end Polish
