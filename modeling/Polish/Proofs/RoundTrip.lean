import Polish.Proofs.Delimited
import Polish.Proofs.Parsing
import Polish.Tree.Printer

namespace Polish

open Grammar Lexer Munch Text

namespace Tree

mutual

def leaves : Tree → List Tree
  | .const v    => [.const v]
  | .ident name => [.ident name]
  | .apply _ ts => leavesAll ts

def leavesAll : List Tree → List Tree
  | []      => []
  | t :: ts => t.leaves ++ leavesAll ts

end

mutual

def operators : Tree → List Operator
  | .const _     => []
  | .ident _     => []
  | .apply op ts => op :: operatorsAll ts

def operatorsAll : List Tree → List Operator
  | []      => []
  | t :: ts => t.operators ++ operatorsAll ts

end

mutual

-- The most applications that lie on one path from the root.
def levels : Tree → Nat
  | .const _    => 0
  | .ident _    => 0
  | .apply _ ts => levelsAll ts + 1

def levelsAll : List Tree → Nat
  | []      => 0
  | t :: ts => max t.levels (levelsAll ts)

end

end Tree

theorem Text.trim_sublist (text : String) : (trim text).toList.Sublist text.toList := by
  rw [toList_trim, trimEnd, trimStart]
  have h := (text.toList.dropWhile isBlank).reverse.dropWhile_sublist isBlank
  exact (List.reverse_reverse _ ▸ h.reverse).trans (List.dropWhile_sublist _)

namespace Munch

theorem cutLiteral_suffix (cs : List Char) : (cutLiteral cs).2 <:+ cs := by
  fun_induction cutLiteral cs
  case case1            => exact List.suffix_refl _
  case case2            => exact List.suffix_cons ..
  case case3 hi         => exact hi.trans <| (List.suffix_cons ..).trans (List.suffix_cons ..)
  case case4 _ _ _ _ hi => exact hi.trans (List.suffix_cons ..)

-- Some word in a text becomes this one when it is trimmed.
def HasWord (cs : List Char) (text : String) : Prop :=
  ∃ w rest, w ++ rest <:+ cs ∧ isWord w ∧ text = trim (.ofList w)

theorem HasWord.suffix {cs ds : List Char} {text : String} (hs : ds <:+ cs) :
    (HasWord ds text) → HasWord cs text
  | ⟨w, rest, h, hw, ht⟩ => ⟨w, rest, h.trans hs, hw, ht⟩

theorem hasWord_of_mem_lexemes {cs : List Char} {a : Token}
    (h : a ∈ lexemes cs) (hk : a.kind = .identifier) : HasWord cs a.text := by
  fun_induction lexemes cs
  case case1 => cases h
  case case2 c cs _ hi => exact hi h |>.suffix (List.suffix_cons ..)
  case case3 cs _ hi =>
    exact hi h |>.suffix <| (List.dropWhile_suffix _).trans (List.suffix_cons ..)
  case case8 c cs hs hc hl hr hq hd text hi =>
    cases List.mem_cons.mp h
    case inr h => exact hi h |>.suffix <| (List.dropWhile_suffix _).trans (List.suffix_cons ..)
    case inl h =>
      refine ⟨c :: cs.takeWhile isWordChar, cs.dropWhile isWordChar, ?_, ?_, h ▸ rfl⟩
      · exact ⟨[], by simp⟩
      · have hw := isWordChar_iff.mpr ⟨hs, hl, hr, hc⟩
        refine isWord_cons_iff.mpr ⟨hw, hq, hd, fun d h => ?_⟩
        exact List.all_eq_true.mp (List.all_takeWhile ..) d h
  all_goals
    cases List.mem_cons.mp h
    case inl h => rw [h] at hk; cases hk
  case case4 hi h | case5 hi h => exact hi h |>.suffix (List.suffix_cons ..)
  case case6 hi h => exact hi h |>.suffix <| (cutLiteral_suffix _).trans (List.suffix_cons ..)
  case case7 hi h => exact hi h |>.suffix <| (List.dropWhile_suffix _).trans (List.suffix_cons ..)

theorem mem_lexemes_of_mem_tokenize {text : String} {a : Token} (h : a ∈ tokenize text) :
    a ∈ lexemes text.toList := by
  rw [tokenize_eq_produce, produce_idle_eq] at h
  exact List.mem_filter.mp h |>.left

-- Trimming and cutting only shorten, so a text that contains itself as a word is this word.
theorem isWord_of_hasWord {text : String} (h : HasWord text.toList text) : isWord text.toList := by
  have ⟨w, rest, hs, hw, ht⟩ := h
  have hl := hs.length_le
  have ht' := trim_sublist (.ofList w)
  rw [← ht, String.toList_ofList] at ht'
  rw [List.length_append] at hl
  rw [ht'.eq_of_length_le (by omega)]
  exact hw

end Munch

theorem Grammar.Expression.mem_of_ident {ts : List Token} {name : String} :
    (Expression ts (.ident name)) → ⟨.identifier, name⟩ ∈ ts
  | .atom .name | .wrapped _ .name _ => by simp

namespace Tree

theorem isWord_of_parse {name : String} (h : parse (tokenize name) = .ok (.ident name)) :
    isWord name.toList := by
  have hm := (sentence_of_parse h).expression.mem_of_ident
  exact isWord_of_hasWord <| hasWord_of_mem_lexemes (mem_lexemes_of_mem_tokenize hm) rfl

theorem exists_readAs_renderValue (v : Value) :
    ∃ ts, ReadAs (renderValue v).toList ts ∧ ts.length ≤ 1 := by
  cases v
  case none     => exact ⟨_, readAs_word (by decide), length_wordTokens_le _⟩
  case text s   => exact ⟨_, readAs_quote s, length_literalTokens_le _⟩
  case number x =>
    cases Number.isNumber_or_isWord_write x
    case inl h => exact ⟨_, readAs_number h, Nat.le_refl 1⟩
    case inr h => exact ⟨_, readAs_word h, length_wordTokens_le _⟩

-- The one token of a leaf that is read back alone is the same in every context.
theorem exists_atom {text : String} {ts : List Token} {t : Tree}
    (h : ReadAs text.toList ts) (hl : ts.length ≤ 1) (hp : parse (tokenize text) = .ok t) :
    ∃ a, ReadAs text.toList [a] ∧ Atom a t := by
  have e := h.tokenize_eq ▸ (sentence_of_parse hp).expression
  cases e
  case atom ha => exact ⟨_, h, ha⟩
  all_goals simp at hl

theorem readAs_spelling {op : Operator} (h : op ≠ .unknown) :
    ReadAs op.spelling.toList [⟨.operator, op.spelling⟩] := by
  have hs : ∀ op ∈ Operator.all,
      isWord op.spelling.toList ∧ wordTokens op.spelling = [⟨.operator, op.spelling⟩] := by
    decide +kernel
  have ⟨hw, ht⟩ := hs op (Operator.mem_all.mpr h)
  have hr := readAs_word hw
  rwa [String.ofList_toList, ht] at hr

theorem delimits_renderAll {rest : List Char} (h : Delimits rest) (ts : List Tree) :
    Delimits ((renderAll ts).toList ++ rest) := by
  cases ts
  case nil  => simpa [renderAll] using h
  case cons => simpa [renderAll] using delimits_cons (by decide) _

theorem readAs_apply {op : Operator} {children : List Tree} {ts : List Token}
    (ho : op ≠ .unknown) (h : ReadAs (renderAll children).toList ts) :
    ReadAs (render (.apply op children)).toList
      (⟨.leftParen, "("⟩ :: ⟨.operator, op.spelling⟩ :: (ts ++ [⟨.rightParen, ")"⟩])) := by
  intro rest hr
  have hd : Delimits (')' :: rest) := delimits_cons (by decide) rest
  have hs := readAs_spelling ho _ (delimits_renderAll hd children)
  let us := (renderAll children).toList
  calc
    idle.produce ((render (.apply op children)).toList ++ rest)
    _ = idle.produce ('(' :: (op.spelling.toList ++ (us ++ ')' :: rest))) := by
      simp [render, us]
    _ = ⟨.leftParen, "("⟩ :: idle.produce (op.spelling.toList ++ (us ++ ')' :: rest)) :=
      produce_idle '(' _
    _ = ⟨.leftParen, "("⟩ :: ⟨.operator, op.spelling⟩ :: (ts ++ idle.produce (')' :: rest)) := by
      rw [hs, h _ hd]
      rfl
    _ = ⟨.leftParen, "("⟩ :: ⟨.operator, op.spelling⟩ ::
        (ts ++ ⟨.rightParen, ")"⟩ :: idle.produce rest) := by
      rw [produce_idle]
      rfl
    _ = _ := by simp

theorem readAs_renderAll_cons {t : Tree} {rest : List Tree} {ts us : List Token}
    (h : ReadAs t.render.toList ts) (hr : ReadAs (renderAll rest).toList us) :
    ReadAs (renderAll (t :: rest)).toList (ts ++ us) := by
  intro cs hc
  calc
    idle.produce ((renderAll (t :: rest)).toList ++ cs)
    _ = idle.produce (' ' :: (t.render.toList ++ ((renderAll rest).toList ++ cs))) := by
      simp [renderAll]
    _ = idle.produce (t.render.toList ++ ((renderAll rest).toList ++ cs)) :=
      produce_idle ' ' _
    _ = ts ++ us ++ idle.produce cs := by
      rw [h _ (delimits_renderAll hc rest), hr cs hc, List.append_assoc]

-- Tokens that the rendered text is read as, and that spell the tree it came from.
structure Spelled (t : Tree) (ts : List Token) : Prop where
  readAs     : ReadAs t.render.toList ts
  expression : Expression ts t
  deepest_le : ∀ n, deepest n ts ≤ n + t.levels

structure SpelledAll (us : List Tree) (ts : List Token) : Prop where
  readAs      : ReadAs (renderAll us).toList ts
  expressions : Expressions ts us
  deepest_le  : ∀ n, deepest n ts ≤ n + levelsAll us

theorem spelled_leaf {t : Tree} {a : Token} (hn : t.levels = 0) (hr : ReadAs t.render.toList [a])
    (ha : Atom a t) : Spelled t [a] where
  readAs       := hr
  expression   := .atom ha
  deepest_le n := by simp [deepest, ha.level, hn]

theorem SpelledAll.nil : SpelledAll [] [] where
  readAs       := fun _ _ => rfl
  expressions  := .nil
  deepest_le n := Nat.le_refl n

theorem SpelledAll.cons {t : Tree} {us : List Tree} {ts ts' : List Token}
    (h : Spelled t ts) (hs : SpelledAll us ts') : SpelledAll (t :: us) (ts ++ ts') where
  readAs       := readAs_renderAll_cons h.readAs hs.readAs
  expressions  := .cons h.expression hs.expressions
  deepest_le n := by
    have := h.deepest_le n
    have := hs.deepest_le n
    rw [deepest_append, h.expression.openAfter_eq, levelsAll]
    omega

theorem SpelledAll.apply {op : Operator} {us : List Tree} {ts : List Token}
    (ho : op ≠ .unknown) (h : SpelledAll us ts) :
    Spelled (.apply op us)
      (⟨.leftParen, "("⟩ :: ⟨.operator, op.spelling⟩ :: (ts ++ [⟨.rightParen, ")"⟩])) where
  readAs     := readAs_apply ho h.readAs
  expression := by
    have e := Expression.apply (l := ⟨.leftParen, "("⟩) (o := ⟨.operator, op.spelling⟩)
      rfl rfl h.expressions
    rwa [operator, Operator.ofSpelling?_spelling ho] at e
  deepest_le n := by
    have := h.deepest_le (n + 1)
    rw [deepest_cons_leftParen rfl, deepest, Token.level_of_operator rfl, deepest_append]
    rw [h.expressions.openAfter_eq, levels]
    simp only [deepest, Token.level]
    omega

mutual

theorem exists_spelled : (t : Tree) → (.unknown ∉ t.operators) →
    (∀ l ∈ t.leaves, parse (tokenize l.render) = .ok l) → ∃ ts, t.Spelled ts
  | .const v, _, hl => by
    have ⟨ts, hr, ht⟩ := exists_readAs_renderValue v
    have ⟨a, ha, h⟩ := exists_atom hr ht (hl (.const v) (by simp [leaves]))
    exact ⟨[a], spelled_leaf rfl ha h⟩
  | .ident name, _, hl => by
    have hp := hl (.ident name) (by simp [leaves])
    have hr := readAs_word (isWord_of_parse hp)
    rw [String.ofList_toList] at hr
    have ⟨a, ha, h⟩ := exists_atom hr (length_wordTokens_le _) hp
    exact ⟨[a], spelled_leaf rfl ha h⟩
  | .apply op us, ho, hl => by
    simp only [operators, List.mem_cons, not_or] at ho
    have ⟨ts, h⟩ := exists_spelledAll us ho.right hl
    exact ⟨_, h.apply (Ne.symm ho.left)⟩

theorem exists_spelledAll : (us : List Tree) → (.unknown ∉ operatorsAll us) →
    (∀ l ∈ leavesAll us, parse (tokenize l.render) = .ok l) → ∃ ts, SpelledAll us ts
  | [], _, _ => ⟨[], .nil⟩
  | t :: us, ho, hl => by
    simp only [operatorsAll, List.mem_append, not_or] at ho
    simp only [leavesAll, List.mem_append] at hl
    have ⟨_, h⟩ := exists_spelled t ho.left (fun l h => hl l (.inl h))
    have ⟨_, hs⟩ := exists_spelledAll us ho.right (fun l h => hl l (.inr h))
    exact ⟨_, .cons h hs⟩

end

end Tree

-- Single spaces and closing parentheses keep the leaves apart, wherever they stand.
theorem parse_tokenize_render (t : Tree) (ho : .unknown ∉ t.operators) (hn : t.levels ≤ 256)
    (hl : ∀ l ∈ t.leaves, parse (tokenize l.render) = .ok l) :
    parse (tokenize t.render) = .ok t := by
  have ⟨ts, h⟩ := t.exists_spelled ho hl
  have hd := h.deepest_le 0
  rw [h.readAs.tokenize_eq]
  exact Sentence.parse_eq ⟨h.expression, by rw [nesting]; omega⟩

-- A word may hold a quote, a text may hold a parenthesis, and an application may have no arguments.
theorem parse_tokenize_render_print :
    ∃ t : Tree, t.render = "(print \"a (b\" (+) x\"1 null 2.5)" ∧
      parse (tokenize t.render) = .ok t := by
  have hn : tokenize (Tree.const (.number 2.5)).render = [⟨.numeric, "2.5"⟩] := by decide +kernel
  let t : Tree := .apply .print [.const (.text "a (b"), .apply .add [], .ident "x\"1", .const .none,
    .const (.number 2.5)]
  refine ⟨t, by decide +kernel, parse_tokenize_render t (by decide) (by decide) ?_⟩
  simp only [t, Tree.leaves, Tree.leavesAll, List.cons_append, List.nil_append,
    List.forall_mem_cons]
  refine ⟨rfl, rfl, rfl, ?_, nofun⟩
  rw [hn]
  exact Sentence.parse_eq ⟨.atom (.numeral (by decide +kernel)), by decide⟩

end Polish
