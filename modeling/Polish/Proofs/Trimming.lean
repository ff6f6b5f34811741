import Mathlib.Data.List.DropRight
import Polish.Proofs.Delimited
import Polish.Proofs.Lines
import Polish.Session

namespace Polish

open Text

namespace Text

-- Characters that trimming removes.
def Blank (cs : List Char) : Prop :=
  ∀ c ∈ cs, isBlank c

theorem Blank.of_sublist {cs ds : List Char} (h : Blank ds) (hs : cs.Sublist ds) : Blank cs :=
  fun c hc => h c (hs.subset hc)

theorem trimEnd_append_of_blank {ds : List Char} (h : Blank ds) (cs : List Char) :
    trimEnd (cs ++ ds) = trimEnd cs := by
  have hr : ∀ c ∈ ds.reverse, isBlank c := fun c hc => h c (List.mem_reverse.mp hc)
  rw [trimEnd, List.reverse_append, List.dropWhile_append_of_pos hr, trimEnd]

theorem trim_append_of_blank {ds : List Char} (h : Blank ds) (text : String) :
    trim (text ++ .ofList ds) = trim text := by
  rw [← String.toList_inj, toList_trim, toList_trim, String.toList_append, String.toList_ofList]
  rw [trimStart, List.dropWhile_append]
  split
  case isTrue ht =>
    rw [trimStart, List.isEmpty_iff.mp ht, List.dropWhile_eq_nil_iff.mpr h]
  case isFalse => exact trimEnd_append_of_blank h _

theorem trim_of_blank {cs : List Char} (h : Blank cs) : trim (.ofList cs) = "" := by
  have ht := trim_append_of_blank h ""
  rwa [String.empty_append] at ht

-- A text is what trimming leaves of it, between the blanks.
theorem exists_toList_eq_trim (text : String) :
    ∃ ds, Blank ds ∧ text.toList = text.toList.takeWhile isBlank ++ ((trim text).toList ++ ds) := by
  let cs := trimStart text.toList
  refine ⟨cs.rtakeWhile isBlank, fun _ => List.mem_rtakeWhile_imp, ?_⟩
  calc
    text.toList
    _ = text.toList.takeWhile isBlank ++ cs := List.takeWhile_append_dropWhile.symm
    _ = text.toList.takeWhile isBlank ++ (trimEnd cs ++ cs.rtakeWhile isBlank) := by
      rw [trimEnd, ← List.rdropWhile, List.rdropWhile_append_rtakeWhile]
    _ = _ := by rw [toList_trim]

theorem trim_of_not_blank {text : String} (h : ∀ c ∈ text.toList, ¬isBlank c) : trim text = text := by
  have ⟨ds, hd, ht⟩ := exists_toList_eq_trim text
  have hs : text.toList.takeWhile isBlank = [] :=
    List.eq_nil_iff_forall_not_mem.mpr fun c hc =>
      h c (List.takeWhile_subset _ hc) (List.mem_takeWhile_imp hc)
  have he : ds = [] :=
    List.eq_nil_iff_forall_not_mem.mpr fun c hc => h c (by rw [ht]; simp [hc]) (hd c hc)
  rw [hs, he, List.nil_append, List.append_nil] at ht
  exact String.toList_inj.mp ht.symm

theorem not_isNumeral_of_isBlank {c : Char} (h : isBlank c) : ¬Munch.isNumeral c := by
  intro hn
  have ⟨hl, hh⟩ : 46 ≤ c.toNat ∧ c.toNat ≤ 57 := by
    cases Bool.or_eq_true_iff.mp hn
    case inl hd =>
      have ⟨hl, hh⟩ := Char.isDigit_iff_toNat.mp hd
      exact ⟨Nat.le_trans (by decide) hl, hh⟩
    case inr hd =>
      rw [beq_iff_eq.mp hd]
      decide
  -- No range of blanks meets the point and the digits.
  have hr : ∀ r ∈ blankRanges, r.2 < 46 ∨ 57 < r.1 := by decide
  have ⟨r, hm, hb⟩ := Ranges.exists_of_contains h
  have := hr r hm
  omega

end Text

namespace Lexer

open Munch

variable {cs : List Char}

-- Separators before a text are passed over.
theorem run_separators (h : ∀ c ∈ cs, isSeparator c) : idle.run cs = (idle, #[]) := by
  induction cs
  case nil          => rfl
  case cons c cs hi =>
    have ⟨hc, hcs⟩ := List.forall_mem_cons.mp h
    have hf : idle.feed c = (idle, []) := by simp [feed, offer, start_separator hc]
    rw [run_cons, hf, hi hcs]
    rfl

-- Words that consist of blanks are dropped.
theorem produce_idle_blank (h : Blank cs) : idle.produce cs = [] := by
  rw [produce_idle_eq]
  fun_induction lexemes cs
  case case1          => rfl
  case case2 c cs _ hi => exact hi (h.of_sublist (List.sublist_cons_self ..))
  case case8 c cs _ _ _ _ _ _ text hi =>
    have hs := h.of_sublist <| (List.takeWhile_sublist isWordChar).cons_cons c
    have ht : text = "" := trim_of_blank hs
    have hd := hi <| h.of_sublist <| (List.dropWhile_sublist _).trans (List.sublist_cons_self ..)
    rw [List.filter_cons_of_neg (by simp [ht]), hd]
  case case7 c cs _ _ _ _ _ hd _ =>
    exact absurd (isNumeral_of_isDigit hd) (not_isNumeral_of_isBlank (h c (by simp)))
  -- Parentheses, comments and literals do not begin with a blank.
  all_goals exact absurd (h _ (List.mem_cons_self ..)) (by decide)

-- Outside of literals, blanks at the end of a text are as good as none.
theorem produce_blank {l : Lexer} (hl : ¬l.isLiteral) (h : Blank cs) :
    l.produce cs = l.finish.2 := by
  cases l
  case idle    => exact produce_idle_blank h
  case comment =>
    rw [produce_comment]
    exact produce_idle_blank (h.of_sublist (List.dropWhile_sublist _))
  case number text =>
    have hn : ∀ c ∈ cs.head?, ¬isNumeral c :=
      fun c hc => not_isNumeral_of_isBlank (h c (List.mem_of_mem_head? hc))
    rw [produce_number]
    cases cs
    case nil => simp [finish, produce_idle_nil]
    case cons c cs =>
      rw [List.takeWhile_cons_of_neg (hn c rfl), List.dropWhile_cons_of_neg (hn c rfl)]
      rw [produce_idle_blank h, String.append_empty]
      rfl
  case word text =>
    have ht := h.of_sublist (List.takeWhile_sublist isWordChar)
    have hd := h.of_sublist (List.dropWhile_sublist isWordChar)
    rw [produce_word, produce_idle_blank hd, List.append_nil]
    rw [finish, wordTokens, trim_append_of_blank ht, wordTokens]
  case literal => exact absurd rfl hl

-- A blank neither ends a literal nor escapes what follows.
theorem isLiteral_feed {l : Lexer} {c : Char} (hl : l.isLiteral) (h : isBlank c) :
    (l.feed c).1.isLiteral := by
  have hq : c ≠ '"' := by rintro rfl; exact absurd h (by decide)
  have he : c ≠ '\\' := by rintro rfl; exact absurd h (by decide)
  cases l
  case literal text escaped =>
    cases escaped
    case true  => rfl
    case false => simp [feed, offer, hq, he, isLiteral]
  all_goals cases hl

theorem isLiteral_run {l : Lexer} (hl : l.isLiteral) (h : Blank cs) : (l.run cs).1.isLiteral := by
  induction cs generalizing l
  case nil          => exact hl
  case cons c cs hi =>
    have ⟨hc, hcs⟩ := List.forall_mem_cons.mp h
    rw [run_cons]
    exact hi (isLiteral_feed hl hc) hcs

end Lexer

theorem tokenize_trim {text : String} (hs : ∀ c ∈ text.toList.takeWhile isBlank, isSeparator c)
    (hc : ClosesLiterals text) : tokenize (trim text) = tokenize text := by
  have ⟨ds, hd, ht⟩ := exists_toList_eq_trim text
  have hr : Lexer.idle.run text.toList = Lexer.idle.run ((trim text).toList ++ ds) := by
    rw [ht, Lexer.run_append, Lexer.run_separators hs]
    simp
  -- A literal that is open before the blanks is open after them.
  have hn : ¬(Lexer.idle.run (trim text).toList).1.isLiteral := by
    intro hl
    rw [ClosesLiterals, hr, Lexer.run_append] at hc
    exact hc (Lexer.isLiteral_run hl hd)
  calc
    tokenize (trim text)
    _ = (Lexer.idle.run (trim text).toList).2.toList ++
        (Lexer.idle.run (trim text).toList).1.produce ds := by
      rw [tokenize_eq_produce, Lexer.produce_blank hn hd]
      rfl
    _ = Lexer.idle.produce ((trim text).toList ++ ds) := (Lexer.produce_append ..).symm
    _ = tokenize text := by rw [tokenize_eq_produce, Lexer.produce, Lexer.produce, hr]

namespace Session

-- Nothing but the tokens of a source matters.
theorem run_congr {source source' : String} (h : tokenize source = tokenize source') :
    run source = run source' := by
  rw [run, run, cycle, cycle, h]

-- Blanks at the end of a line make no tokens, whatever is being read there but a literal. At the
-- start of a line only separators are that harmless.
theorem exec_line_eq_run (m : Machine) {text : String}
    (hn : trim text ∉ ["", ":quit", ":clear_runtime", ":help"])
    (hs : ∀ c ∈ text.toList.takeWhile isBlank, isSeparator c) (hc : ClosesLiterals text) :
    m.exec (line text) =
      match m.exec (run text) with
      | (.ok v, m')    => (.ok (.value v), m')
      | (.error e, m') => (.error e, m') := by
  rw [line]
  split
  case h_1 h => simp [h] at hn
  case h_2 h => simp [h] at hn
  case h_3 h => simp [h] at hn
  case h_4 h => simp [h] at hn
  case h_5   =>
    rw [run_congr (tokenize_trim hs hc), Machine.exec_bind]
    match m.exec (run text) with
    | (.ok _, _)    => rfl
    | (.error _, _) => rfl

-- A no-break space is part of the word that it follows, and nothing is left of the one after it.
theorem exec_line_eq_run_no_break_space :
    let m : Machine := { env := Env.empty.set "x" (.text "a"), input := { bytes := [] } }
    let text := "\t x\u00a0 \u00a0"
    trim text ∉ ["", ":quit", ":clear_runtime", ":help"] ∧ ClosesLiterals text ∧
    (∀ c ∈ text.toList.takeWhile isBlank, isSeparator c) ∧
    m.exec (run text) = (.ok (some (.text "a")), m) ∧
    m.exec (line text) = (.ok (.value (some (.text "a"))), m) := by
  intro m text
  have hn : trim text ∉ ["", ":quit", ":clear_runtime", ":help"] := by decide
  have hs : ∀ c ∈ text.toList.takeWhile isBlank, isSeparator c := by
    have hb : text.toList.takeWhile isBlank = ['\t', ' '] := by decide
    simp [hb, isSeparator]
  have hc : ClosesLiterals text := by decide
  have ht : tokenize text = [⟨.identifier, "x"⟩] := by decide
  have hr : m.exec (run text) = (.ok (some (.text "a")), m) := by
    rw [run, cycle, ht]
    rfl
  have h := exec_line_eq_run m hn hs hc
  rw [hr] at h
  exact ⟨hn, hc, hs, hr, h⟩

end Session
end Polish
