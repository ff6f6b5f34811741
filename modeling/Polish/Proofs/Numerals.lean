import Polish.Proofs.Parsing
import Polish.Proofs.Ranks
import Polish.Proofs.Stability
import Polish.Proofs.Trimming

namespace Polish

open Text Munch

namespace Number.Numeral

-- A sign, or none.
inductive Sign : List Char → Prop
  | none  : Sign []
  | plus  : Sign ['+']
  | minus : Sign ['-']

def Digits (cs : List Char) : Prop :=
  ∀ c ∈ cs, c.isDigit

-- Digits, with or without a point before, among or after them.
inductive Mantissa : List Char → Prop
  | bare {ds} :
    (Digits ds) → (ds ≠ []) → Mantissa ds
  | pointed {ds fs} :
    (Digits ds) → (Digits fs) → (ds ++ fs ≠ []) → Mantissa (ds ++ '.' :: fs)

inductive Exponent : List Char → Prop
  | none :
    Exponent []
  | power {c sign ds} :
    (c = 'e' ∨ c = 'E') → (Sign sign) → (ds ≠ []) → (Digits ds) → Exponent (c :: (sign ++ ds))

-- Decimal notation.
inductive IsDecimal : List Char → Prop
  | intro {sign mantissa exponent} :
    (Sign sign) → (Mantissa mantissa) → (Exponent exponent) →
    IsDecimal (sign ++ (mantissa ++ exponent))

section Characters

variable {c : Char}

theorem isMark_iff : isMark c ↔ c = 'e' ∨ c = 'E' := by
  simp [isMark]

theorem isNumeral_iff : isNumeral c ↔ c.isDigit ∨ c = '.' := by
  simp [isNumeral]

theorem not_isNumeral_of_isMark (h : isMark c) : ¬isNumeral c := by
  cases isMark_iff.mp h
  case inl h => subst h; decide
  case inr h => subst h; decide

end Characters

namespace Digits

variable {ds fs : List Char}

theorem isNumeral (h : Digits ds) : ∀ c ∈ ds, isNumeral c :=
  fun c hc => isNumeral_of_isDigit (h c hc)

theorem head_isNumeral (h : Digits ds) : ∀ c ∈ ds.head?, Munch.isNumeral c :=
  fun c hc => h.isNumeral c (List.mem_of_mem_head? hc)

theorem append (h : Digits ds) (hf : Digits fs) : Digits (ds ++ fs) :=
  List.forall_mem_append.mpr ⟨h, hf⟩

theorem count_point (h : Digits ds) : ds.count '.' = 0 :=
  List.count_eq_zero.mpr fun hp => absurd (h '.' hp) (by decide)

theorem exists_mem (h : Digits ds) (hn : ds ≠ []) : ∃ c ∈ ds, c.isDigit :=
  have ⟨c, hc⟩ := List.exists_mem_of_ne_nil ds hn
  ⟨c, hc, h c hc⟩

end Digits

-- Neither a digit nor a point is a sign.
theorem splitSign_append {sign cs : List Char} (hs : Sign sign)
    (hc : ∀ c ∈ cs.head?, isNumeral c) : (splitSign (sign ++ cs)).2 = cs := by
  cases hs
  case plus  => rfl
  case minus => rfl
  case none  =>
    fun_cases splitSign cs
    case case1 => exact absurd (hc _ rfl) (by decide)
    case case2 => exact absurd (hc _ rfl) (by decide)
    case case3 => rfl

theorem exists_sign (cs : List Char) : ∃ sign, Sign sign ∧ sign ++ (splitSign cs).2 = cs := by
  fun_cases splitSign cs
  case case1 => exact ⟨_, .minus, rfl⟩
  case case2 => exact ⟨_, .plus, rfl⟩
  case case3 => exact ⟨_, .none, rfl⟩

theorem exponent_cons_iff {c : Char} {cs : List Char} :
    Exponent (c :: cs) ↔ isMark c ∧ (splitSign cs).2 ≠ [] ∧ Digits (splitSign cs).2 := by
  constructor
  case mp =>
    rintro (_ | ⟨hc, hs, hn, hd⟩)
    rw [splitSign_append hs hd.head_isNumeral]
    exact ⟨isMark_iff.mpr hc, hn, hd⟩
  case mpr =>
    intro ⟨hc, hn, hd⟩
    obtain ⟨sign, hs, he⟩ := exists_sign cs
    exact he ▸ .power (isMark_iff.mp hc) hs hn hd

theorem isSome_readExponent? (cs : List Char) : (readExponent? cs).isSome ↔ Exponent cs := by
  cases cs
  case nil       => simp [readExponent?, Exponent.none]
  case cons c cs =>
    rw [exponent_cons_iff, readExponent?]
    simp [isMark, Digits, and_assoc]

theorem Exponent.head_isMark {cs : List Char} (h : Exponent cs) : ∀ c ∈ cs.head?, isMark c := by
  cases cs
  case nil       => nofun
  case cons c cs => simpa using (exponent_cons_iff.mp h).left

theorem splitFraction_of_exponent {cs : List Char} (h : Exponent cs) : splitFraction cs = ([], cs) := by
  fun_cases splitFraction cs
  case case1 => exact absurd (h.head_isMark '.' rfl) (by decide)
  case case2 => rfl

theorem Sign.count_point {cs : List Char} (h : Sign cs) : cs.count '.' = 0 := by
  cases h <;> rfl

theorem Exponent.count_point {cs : List Char} (h : Exponent cs) : cs.count '.' = 0 := by
  cases h
  case none                   => rfl
  case power c _ _ hc hs _ hd =>
    have hp : c ≠ '.' := by rintro rfl; exact absurd hc (by decide)
    simp [hs.count_point, hd.count_point, hp]

namespace Mantissa

variable {cs : List Char}

theorem isNumeral (h : Mantissa cs) : ∀ c ∈ cs, isNumeral c := by
  cases h
  case bare hd _       => exact hd.isNumeral
  case pointed hd hf _ =>
    exact List.forall_mem_append.mpr ⟨hd.isNumeral, List.forall_mem_cons.mpr ⟨rfl, hf.isNumeral⟩⟩

theorem ne_nil (h : Mantissa cs) : cs ≠ [] := by
  cases h
  case bare hn => exact hn
  case pointed => simp

theorem head_append (h : Mantissa cs) (ds : List Char) : ∀ c ∈ (cs ++ ds).head?, Munch.isNumeral c := by
  cases cs
  case nil       => exact absurd rfl h.ne_nil
  case cons c cs => simpa using h.isNumeral c (List.mem_cons_self ..)

theorem exists_digit (h : Mantissa cs) : ∃ c ∈ cs, c.isDigit := by
  cases h
  case bare hd hn       => exact hd.exists_mem hn
  case pointed hd hf hn =>
    have ⟨c, hc, h⟩ := (hd.append hf).exists_mem hn
    exact ⟨c, by grind, h⟩

theorem count_point_le (h : Mantissa cs) : cs.count '.' ≤ 1 := by
  cases h
  case bare hd _       => simp [hd.count_point]
  case pointed hd hf _ => simp [hd.count_point, hf.count_point]

-- Cut at its first character that is no digit, a mantissa comes apart into what it was made of.
theorem exists_split (h : Mantissa cs) {exponent : List Char} (he : Exponent exponent) :
    ∃ whole fraction, whole ++ fraction ≠ [] ∧
      (cs ++ exponent).takeWhile Char.isDigit = whole ∧
      splitFraction ((cs ++ exponent).dropWhile Char.isDigit) = (fraction, exponent) := by
  have hx : ∀ c ∈ exponent.head?, ¬c.isDigit :=
    fun c hc hd => not_isNumeral_of_isMark (he.head_isMark c hc) (isNumeral_of_isDigit hd)
  cases h
  case bare hd hn =>
    rw [takeWhile_run hd hx, dropWhile_run hd hx]
    exact ⟨cs, [], by simpa using hn, rfl, splitFraction_of_exponent he⟩
  case pointed ds fs hd hf hn =>
    have hp : ∀ c ∈ ('.' :: (fs ++ exponent)).head?, ¬c.isDigit := by simp
    rw [List.append_assoc, List.cons_append, takeWhile_run hd hp, dropWhile_run hd hp]
    rw [splitFraction, takeWhile_run hf hx, dropWhile_run hf hx]
    exact ⟨ds, fs, hn, rfl, rfl⟩

end Mantissa

theorem digits_takeWhile (cs : List Char) : Digits (cs.takeWhile Char.isDigit) :=
  fun _ => List.mem_takeWhile_imp

theorem exists_mantissa {cs : List Char}
    (h : cs.takeWhile Char.isDigit ++ (splitFraction (cs.dropWhile Char.isDigit)).1 ≠ []) :
    ∃ mantissa, Mantissa mantissa ∧
      mantissa ++ (splitFraction (cs.dropWhile Char.isDigit)).2 = cs := by
  have hd := digits_takeWhile cs
  have hc := cs.takeWhile_append_dropWhile (p := Char.isDigit)
  generalize cs.takeWhile Char.isDigit = ds at h hd hc
  generalize cs.dropWhile Char.isDigit = rest at h hc
  fun_cases splitFraction rest
  case case1 fs =>
    refine ⟨ds ++ '.' :: fs.takeWhile Char.isDigit, .pointed hd (digits_takeWhile fs) h, ?_⟩
    simpa using hc
  case case2 hp =>
    rw [splitFraction.eq_2 _ hp] at h
    exact ⟨ds, .bare hd (by simpa using h), hc⟩

-- Reading takes the sign and the digits off, and asks for a digit and an exponent.
theorem isSome_read?_iff_parts (cs : List Char) :
    (read? cs).isSome ↔
      (splitSign cs).2.takeWhile Char.isDigit ++
        (splitFraction ((splitSign cs).2.dropWhile Char.isDigit)).1 ≠ [] ∧
      Exponent (splitFraction ((splitSign cs).2.dropWhile Char.isDigit)).2 := by
  rw [← isSome_readExponent?, read?]
  obtain ⟨negative, unsigned⟩ := splitSign cs
  dsimp only
  generalize unsigned.takeWhile Char.isDigit = whole
  obtain ⟨fraction, rest⟩ := splitFraction (unsigned.dropWhile Char.isDigit)
  by_cases hn : whole ++ fraction = []
  case pos =>
    rw [hn]
    exact iff_of_false Bool.false_ne_true fun h => h.left rfl
  case neg =>
    dsimp only
    rw [List.isEmpty_eq_false_iff.mpr hn]
    cases readExponent? rest
    case none   => exact iff_of_false Bool.false_ne_true fun h => Bool.false_ne_true h.right
    case some e => exact iff_of_true rfl ⟨hn, rfl⟩

theorem isSome_read? (cs : List Char) : (read? cs).isSome ↔ IsDecimal cs := by
  rw [isSome_read?_iff_parts]
  constructor
  case mp =>
    intro ⟨hn, he⟩
    obtain ⟨sign, hs, hc⟩ := exists_sign cs
    obtain ⟨mantissa, hm, hu⟩ := exists_mantissa hn
    have hd := IsDecimal.intro hs hm he
    rwa [hu, hc] at hd
  case mpr =>
    rintro ⟨hs, hm, he⟩
    obtain ⟨whole, fraction, hn, hw, hf⟩ := hm.exists_split he
    rw [splitSign_append hs (hm.head_append _), hw, hf]
    exact ⟨hn, he⟩

theorem IsDecimal.count_point_le {cs : List Char} (h : IsDecimal cs) : cs.count '.' ≤ 1 := by
  obtain ⟨hs, hm, he⟩ := h
  simpa [hs.count_point, he.count_point] using hm.count_point_le

-- Whatever is in decimal notation is put together like a numeral.
theorem IsDecimal.hasShape {cs : List Char} (h : IsDecimal cs) : hasShape cs := by
  cases h
  case intro sign mantissa exponent hs hm he =>
    have hc : ∀ c ∈ mantissa, !isMark c := by
      intro c hc
      simpa using mt not_isNumeral_of_isMark (not_not.mpr (hm.isNumeral c hc))
    have hh : ∀ c ∈ exponent.head?, ¬(!isMark c) := fun c hc => by simp [he.head_isMark c hc]
    have hd : mantissa.any Char.isDigit := List.any_eq_true.mpr hm.exists_digit
    have ha : mantissa.all (fun c => c.isDigit || c == '.') := List.all_eq_true.mpr hm.isNumeral
    simp only [Numeral.hasShape, splitSign_append hs (hm.head_append _)]
    rw [takeWhile_run hc hh, dropWhile_run hc hh, hd, ha]
    cases exponent
    case nil       => rfl
    case cons c cs =>
      obtain ⟨_, hn, hd⟩ := exponent_cons_iff.mp he
      simpa [hn, Digits] using hd

theorem exists_digit_of_hasShape {cs : List Char} (h : hasShape cs) :
    ∃ c ∈ (splitSign cs).2, c.isDigit := by
  simp only [hasShape, Bool.and_eq_true, List.any_eq_true] at h
  obtain ⟨⟨⟨c, hc, hd⟩, _⟩, _⟩ := h
  exact ⟨c, (List.takeWhile_subset _) hc, hd⟩

end Number.Numeral

namespace Number

open Numeral

theorem toLower_of_isDigit {c : Char} (h : c.isDigit) : c.toLower = c := by
  have ⟨_, hh⟩ := Char.isDigit_iff_toNat.mp h
  refine dif_neg fun hu => ?_
  have hl : 'A'.toNat ≤ c.toNat := UInt32.le_iff_toNat_le.mp hu.left
  exact absurd (Nat.le_trans hl hh) (by decide)

-- No word for a number has a digit in it.
theorem ofWord?_eq_none {cs : List Char} {c : Char} (hc : c ∈ (splitSign cs).2) (hd : c.isDigit) :
    ofWord? cs = none := by
  have hm : c ∈ (splitSign cs).2.map Char.toLower := List.mem_map.mpr ⟨c, hc, toLower_of_isDigit hd⟩
  have hw {word : List Char} (h : ∀ c ∈ word, ¬c.isDigit) :
      (splitSign cs).2.map Char.toLower ≠ word := fun he => h c (he ▸ hm) hd
  rw [ofWord?, if_neg, if_neg]
  · exact hw (by simp)
  · exact not_or.mpr ⟨hw (by simp), hw (by simp)⟩

-- What has the shape of a numeral and stands for a number is a numeral.
theorem read?_eq (s : String) : read? s = (Numeral.read? (trim s).toList).map toFloat := by
  simp only [read?]
  split
  case isTrue h =>
    have ⟨c, hc, hd⟩ := exists_digit_of_hasShape h
    rw [ofChars?, ofWord?_eq_none hc hd]
    cases Numeral.read? (trim s).toList <;> rfl
  case isFalse h =>
    cases hr : Numeral.read? (trim s).toList
    case none   => rfl
    case some n =>
      have hd := (isSome_read? (trim s).toList).mp (by rw [hr]; rfl)
      exact absurd hd.hasShape h

theorem not_isNaN_of_read? {s : String} {x : Float} (h : read? s = some x) : ¬x.isNaN := by
  rw [read?_eq, Option.map_eq_some_iff] at h
  obtain ⟨n, _, rfl⟩ := h
  exact not_isNaN_ofRank n.magnitude.rank_le n.negative

theorem isSome_read?_iff (s : String) : (read? s).isSome ↔ IsDecimal (trim s).toList := by
  rw [read?_eq, Option.isSome_map, isSome_read?]

end Number

namespace Munch

open Number Number.Numeral

theorem digits_of_not_mem {cs : List Char} (h : ∀ c ∈ cs, isNumeral c) (hp : '.' ∉ cs) :
    Digits cs := by
  intro c hc
  cases isNumeral_iff.mp (h c hc)
  case inl hd => exact hd
  case inr he => exact absurd (he ▸ hc) hp

-- A number of the lexer has a digit before its first point, and digits only after it if there is no
-- second one.
theorem mantissa_of_isNumber {cs : List Char} (h : isNumber cs) (hc : cs.count '.' ≤ 1) :
    Mantissa cs := by
  have hn : ∀ c ∈ cs, isNumeral c := fun _ => isNumeral_of_mem_isNumber h
  by_cases hp : '.' ∈ cs
  case neg =>
    exact .bare (digits_of_not_mem hn hp) (by rintro rfl; cases h)
  case pos =>
    obtain ⟨ds, fs, rfl, hd⟩ := List.eq_append_cons_of_mem hp
    have hf : '.' ∉ fs := by
      rw [List.count_append, List.count_cons_self] at hc
      exact List.count_eq_zero.mp (by omega)
    have ⟨hn, hm⟩ := List.forall_mem_append.mp hn
    have ⟨_, hm⟩ := List.forall_mem_cons.mp hm
    refine .pointed (digits_of_not_mem hn hd) (digits_of_not_mem hm hf) fun he => ?_
    rw [(List.append_eq_nil_iff.mp he).left] at h
    cases h

theorem isDecimal_iff_count {cs : List Char} (h : isNumber cs) :
    IsDecimal cs ↔ cs.count '.' ≤ 1 := by
  constructor
  case mp  => exact IsDecimal.count_point_le
  case mpr =>
    intro hc
    simpa using IsDecimal.intro .none (mantissa_of_isNumber h hc) .none

theorem trim_of_isNumber {s : String} (h : isNumber s.toList) : trim s = s :=
  trim_of_not_blank fun _ hc hb => not_isNumeral_of_isBlank hb (isNumeral_of_mem_isNumber h hc)

theorem isNumber_of_mem_tokenize {source text : String} (h : ⟨.numeric, text⟩ ∈ tokenize source) :
    isNumber text.toList := by
  cases cut_of_mem_lexemes (mem_lexemes_of_mem_tokenize h)
  case number h => exact h
  case word hk  =>
    simp only [wordKind] at hk
    repeat' split at hk
    all_goals cases hk

end Munch

theorem parse_numeral (text : String) :
    parse [⟨.numeric, text⟩] =
      match Number.read? text with
      | some x => .ok (.const (.number x))
      | none   => .error (.invalidNumeral text) := by
  simp only [parse, List.foldlM, Parser.start, Parser.step, Parser.atom?]
  cases Number.read? text <;> rfl

-- What is put together like a numeral may have too many points, and what stands for a number may be
-- a word, but nothing is both.
theorem Number.reads_exactly_decimal (text : String) :
    ((read? text).isSome ↔ Numeral.IsDecimal (trim text).toList) ∧
    (∀ x, read? text = some x → ¬x.isNaN) ∧
    (∀ source, ⟨.numeric, text⟩ ∈ tokenize source →
      (text.toList.count '.' ≤ 1 →
        ∃ x, read? text = some x ∧ parse [⟨.numeric, text⟩] = .ok (.const (.number x))) ∧
      (1 < text.toList.count '.' →
        read? text = none ∧ parse [⟨.numeric, text⟩] = .error (.invalidNumeral text))) := by
  refine ⟨isSome_read?_iff text, fun _ => not_isNaN_of_read?, fun source ht => ?_⟩
  have hn := Munch.isNumber_of_mem_tokenize ht
  have hs : (read? text).isSome ↔ text.toList.count '.' ≤ 1 := by
    rw [isSome_read?_iff, Munch.trim_of_isNumber hn, Munch.isDecimal_iff_count hn]
  rw [parse_numeral]
  cases hr : read? text <;> rw [hr] at hs
  case none =>
    have hc : ¬text.toList.count '.' ≤ 1 := by simpa using hs
    exact ⟨fun h => absurd h hc, fun _ => ⟨rfl, rfl⟩⟩
  case some x =>
    have hc : text.toList.count '.' ≤ 1 := by simpa using hs
    exact ⟨fun _ => ⟨x, rfl, rfl⟩, fun h => absurd hc (Nat.not_le.mpr h)⟩

-- A point may come last, but not twice.
theorem Number.reads_exactly_decimal_points :
    let source := "(+ 7. 1.2.3)"
    ⟨.numeric, "7."⟩ ∈ tokenize source ∧ ⟨.numeric, "1.2.3"⟩ ∈ tokenize source ∧
    (∃ x, read? "7." = some x ∧ ¬x.isNaN ∧ parse [⟨.numeric, "7."⟩] = .ok (.const (.number x))) ∧
    read? "1.2.3" = none ∧ ¬Numeral.IsDecimal (trim "1.2.3").toList ∧
    parse [⟨.numeric, "1.2.3"⟩] = .error (.invalidNumeral "1.2.3") := by
  intro source
  have h₁ : ⟨.numeric, "7."⟩ ∈ tokenize source := by decide
  have h₂ : ⟨.numeric, "1.2.3"⟩ ∈ tokenize source := by decide
  have ⟨_, hx, hs⟩ := reads_exactly_decimal "7."
  have ⟨hd, _, hf⟩ := reads_exactly_decimal "1.2.3"
  have ⟨x, hr, hp⟩ := (hs source h₁).left (by decide)
  have ⟨hn, he⟩ := (hf source h₂).right (by decide)
  exact ⟨h₁, h₂, ⟨x, hr, hx x hr, hp⟩, hn, by rw [← hd, hn]; nofun, he⟩

end Polish
