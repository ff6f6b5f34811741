import Polish.Proofs.Delimited
import Polish.Tree.Printer

namespace Polish

open Lexer Munch

namespace Munch

theorem unescapeAll_append {ds : List Char} (h : ∀ d ∈ ds, d ≠ '\\') (cs : List Char) :
    unescapeAll (ds ++ cs) = ds ++ unescapeAll cs := by
  induction ds
  case nil          => rfl
  case cons d ds hi =>
    simp only [List.forall_mem_cons] at h
    rw [List.cons_append, unescapeAll_cons h.left, hi h.right]
    rfl

end Munch

namespace Text

-- The characters that reading gives back as they were written.
def isLegible (c : Char) : Bool :=
  c != '\x00' && (isPrintable c || c == '\t' || c == '\r' || c == '\n')

-- What reading makes of the written form of a character.
def reread (c : Char) : List Char :=
  if isLegible c then [c]
  else if c = '\x00' then ['0']
  else 'u' :: '\x7b' :: Nat.toDigits 16 c.toNat ++ ['\x7d']

theorem reread_ne_nil (c : Char) : reread c ≠ [] := by
  rw [reread]
  split
  case isTrue  => simp
  case isFalse => split <;> simp

theorem reread_eq_self_iff {c : Char} : reread c = [c] ↔ isLegible c := by
  by_cases hc : isLegible c
  case pos => simp [reread, hc]
  case neg =>
    by_cases h0 : c = '\x00'
    case pos => subst h0; decide
    case neg => simp [reread, hc, h0]

theorem unescapeAll_codePoint (n : Nat) (cs : List Char) :
    unescapeAll ('\\' :: 'u' :: '\x7b' :: Nat.toDigits 16 n ++ ['\x7d'] ++ cs) =
      'u' :: '\x7b' :: Nat.toDigits 16 n ++ ['\x7d'] ++ unescapeAll cs := by
  have h := unescapeAll_append (fun _ h => (plain_of_mem_codePoint (n := n) h).right) cs
  calc
    unescapeAll ('\\' :: 'u' :: '\x7b' :: Nat.toDigits 16 n ++ ['\x7d'] ++ cs)
    _ = 'u' :: unescapeAll ('\x7b' :: Nat.toDigits 16 n ++ ['\x7d'] ++ cs) := rfl
    _ = 'u' :: ('\x7b' :: Nat.toDigits 16 n ++ ['\x7d'] ++ unescapeAll cs) := by rw [h]

-- The cases are those of `escape`: the six short escapes, and then all other characters.
theorem unescapeAll_escape (c : Char) (cs : List Char) :
    unescapeAll (escape c ++ cs) = reread c ++ unescapeAll cs := by
  unfold escape
  split
  case h_7 h0 ht hr hn hq he =>
    have hl : isLegible c = isPrintable c := by grind [isLegible]
    rw [reread, hl]
    split
    case isTrue  => exact unescapeAll_cons he cs
    case isFalse => exact unescapeAll_codePoint c.toNat cs
  all_goals rfl

theorem unescapeAll_escapes (s : List Char) : unescapeAll (s.flatMap escape) = s.flatMap reread := by
  induction s
  case nil         => rfl
  case cons c s hi => rw [List.flatMap_cons, unescapeAll_escape, hi, List.flatMap_cons]

theorem length_le_flatMap_reread (s : List Char) : s.length ≤ (s.flatMap reread).length := by
  induction s
  case nil         => exact Nat.le_refl 0
  case cons c s hi =>
    have := List.length_pos_iff.mpr (reread_ne_nil c)
    rw [List.flatMap_cons, List.length_append, List.length_cons]
    omega

-- No character is lost in reading, so one that grows cannot be made up for by another.
theorem flatMap_reread_eq_self_iff {s : List Char} :
    s.flatMap reread = s ↔ ∀ c ∈ s, isLegible c := by
  induction s
  case nil         => simp
  case cons c s hi =>
    rw [List.flatMap_cons, List.forall_mem_cons, ← hi, ← reread_eq_self_iff]
    constructor
    case mpr => intro ⟨hc, hs⟩; rw [hc, hs]; rfl
    case mp =>
      intro (h : _ = [c] ++ s)
      have hl := congrArg List.length h
      have hs := length_le_flatMap_reread s
      have hc := List.length_pos_iff.mpr (reread_ne_nil c)
      simp only [List.length_append] at hl
      have hc : (reread c).length = [c].length := by rw [List.length_singleton] at hl ⊢; omega
      exact List.append_inj h hc

theorem tokenize_quote {s : String} (h : s ≠ "") :
    tokenize (quote s) = [⟨.string, .ofList (s.toList.flatMap reread)⟩] := by
  have hs : s.toList.flatMap reread ≠ [] := by
    intro hs
    have hl := length_le_flatMap_reread s.toList
    rw [hs] at hl
    exact h (String.toList_eq_nil_iff.mp (List.eq_nil_of_length_eq_zero (Nat.le_zero.mp hl)))
  rw [(readAs_quote s).tokenize_eq, unescapeAll_escapes, literalTokens, if_neg]
  simpa using hs

end Text

open Text

-- Writing escapes more characters than reading knows escapes for.
theorem tokenize_render_text {s : String} (h : s ≠ "") :
    tokenize (Tree.render (.const (.text s))) = [⟨.string, .ofList (s.toList.flatMap reread)⟩] ∧
    (tokenize (Tree.render (.const (.text s))) = [⟨.string, s⟩] ↔ ∀ c ∈ s.toList, isLegible c) := by
  have ht := tokenize_quote h
  refine ⟨ht, ?_⟩
  rw [← flatMap_reread_eq_self_iff, Tree.render, Tree.renderValue, ht]
  simp [← String.toList_inj]

theorem tokenize_render_quotes_and_tabs :
    "\t\"é\\" ≠ "" ∧ (∀ c ∈ "\t\"é\\".toList, isLegible c) ∧
    tokenize (Tree.render (.const (.text "\t\"é\\"))) = [⟨.string, "\t\"é\\"⟩] := by
  have hl : "\t\"é\\".toList.all isLegible := by decide +kernel
  have hl : ∀ c ∈ "\t\"é\\".toList, isLegible c := List.all_eq_true.mp hl
  exact ⟨by decide, hl, tokenize_render_text (by decide) |>.right.mpr hl⟩

-- A form feed is written by its code point, which reading takes for four characters.
theorem tokenize_render_form_feed :
    Tree.render (.const (.text "\x0c")) = "\"\\u\x7bc\x7d\"" ∧
    tokenize (Tree.render (.const (.text "\x0c"))) = [⟨.string, "u\x7bc\x7d"⟩] ∧
    ¬∀ s ≠ "", tokenize (Tree.render (.const (.text s))) = [⟨.string, s⟩] := by
  have h : tokenize (Tree.render (.const (.text "\x0c"))) = [⟨.string, "u\x7bc\x7d"⟩] := by decide
  refine ⟨by decide, h, fun hs => ?_⟩
  exact absurd (h.symm.trans (hs "\x0c" (by decide))) (by decide)

end Polish
