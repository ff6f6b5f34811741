import Polish.Proofs.Batch
import Polish.Proofs.Coupling
import Polish.Proofs.Nearest
import Polish.Proofs.Numerals

namespace Polish

open Text Lexer Munch

namespace Number

namespace Numeral

-- What a numeral without an exponent comes to.
theorem read?_of_split {cs unsigned whole fraction : List Char} {negative : Bool}
    (hs : splitSign cs = (negative, unsigned)) (hw : unsigned.takeWhile Char.isDigit = whole)
    (hf : splitFraction (unsigned.dropWhile Char.isDigit) = (fraction, []))
    (hn : whole ++ fraction ≠ []) :
    read? cs = some ⟨negative, Nat.ofDigitChars 10 (whole ++ fraction) 0, -fraction.length⟩ := by
  simp [read?, hs, hw, hf, hn, readExponent?]

theorem splitSign_of_isNumber (negative : Bool) {cs : List Char} (h : isNumber cs) :
    splitSign ((if negative then ['-'] else []) ++ cs) = (negative, cs) := by
  cases negative
  case true  => rfl
  case false =>
    rw [if_neg Bool.false_ne_true, List.nil_append]
    fun_cases splitSign cs
    case case1 => exact absurd (isNumber_cons_iff.mp h).left (by decide)
    case case2 => exact absurd (isNumber_cons_iff.mp h).left (by decide)
    case case3 => rfl

end Numeral

namespace Decimal

theorem digits_digits (d : Decimal) : Numeral.Digits d.digits :=
  fun _ => isDigit_of_mem_digits

theorem digits_zeros (n : Nat) : Numeral.Digits (List.replicate n '0') := by
  intro c hc
  rw [List.eq_of_mem_replicate hc]
  rfl

-- Zeros before digits make no difference, and each zero after them counts ten times.
theorem ofDigitChars_zeros_digits (d : Decimal) (n : Nat) :
    Nat.ofDigitChars 10 (List.replicate n '0' ++ d.digits) 0 = d.coefficient := by
  rw [Nat.ofDigitChars_append, Nat.ofDigitChars_replicate_zero, Nat.mul_zero, digits,
    Nat.ofDigitChars_ten_toDigits]

theorem ofDigitChars_digits_zeros (d : Decimal) (n : Nat) :
    Nat.ofDigitChars 10 (d.digits ++ List.replicate n '0') 0 = d.coefficient * 10 ^ n := by
  rw [Nat.ofDigitChars_append, Nat.ofDigitChars_replicate_zero, digits,
    Nat.ofDigitChars_ten_toDigits, Nat.mul_comm]

-- A fraction has as many digits behind its point as its exponent says.
theorem exists_positional_eq {d : Decimal} (h : ¬0 ≤ d.exponent) :
    ∃ n whole fraction, d.positional = whole ++ '.' :: fraction ∧
      whole ++ fraction = List.replicate n '0' ++ d.digits ∧ -(fraction.length : Int) = d.exponent := by
  rw [positional, if_neg h]
  extract_lets places ds
  have hl : places ≤ ds.length := by
    simp only [ds, List.length_append, List.length_replicate]
    omega
  refine ⟨_, _, _, rfl, List.take_append_drop .., ?_⟩
  rw [List.length_drop]
  omega

theorem read?_positional_whole {d : Decimal} (h : 0 ≤ d.exponent) (negative : Bool) :
    Numeral.read? ((if negative then ['-'] else []) ++ d.positional) =
      some ⟨negative, d.coefficient * 10 ^ d.exponent.toNat, 0⟩ := by
  have hp : d.positional = d.digits ++ List.replicate d.exponent.toNat '0' := if_pos h
  have hd : Numeral.Digits d.positional := hp ▸ d.digits_digits.append (digits_zeros _)
  have hs := Numeral.splitSign_of_isNumber negative d.isNumber_positional
  have hn : d.positional ++ [] ≠ [] := by simp [hp, digits, Nat.toDigits_ne_nil]
  have hf : Numeral.splitFraction (d.positional.dropWhile Char.isDigit) = ([], []) := by
    rw [List.dropWhile_eq_nil_iff.mpr hd]
    rfl
  rw [Numeral.read?_of_split hs (List.takeWhile_eq_self_iff.mpr hd) hf hn, List.append_nil, hp,
    ofDigitChars_digits_zeros]
  rfl

theorem read?_positional_fraction {d : Decimal} (h : ¬0 ≤ d.exponent) (negative : Bool) :
    Numeral.read? ((if negative then ['-'] else []) ++ d.positional) = some ⟨negative, d⟩ := by
  obtain ⟨n, whole, fraction, hp, hc, hl⟩ := exists_positional_eq h
  obtain ⟨hw, hf⟩ : Numeral.Digits whole ∧ Numeral.Digits fraction :=
    List.forall_mem_append.mp (hc ▸ (digits_zeros n).append d.digits_digits)
  have hs := Numeral.splitSign_of_isNumber negative d.isNumber_positional
  have hn : whole ++ fraction ≠ [] := by simp [hc, digits, Nat.toDigits_ne_nil]
  have hx : ∀ c ∈ ('.' :: fraction).head?, ¬c.isDigit := by simp
  have hf : Numeral.splitFraction ((whole ++ '.' :: fraction).dropWhile Char.isDigit) =
      (fraction, []) := by
    rw [dropWhile_run hw hx, Numeral.splitFraction, List.takeWhile_eq_self_iff.mpr hf,
      List.dropWhile_eq_nil_iff.mpr hf]
  rw [hp] at hs ⊢
  rw [Numeral.read?_of_split hs (takeWhile_run hw hx) hf hn, hc, ofDigitChars_zeros_digits, hl]

-- All the digits are read, and come to the same magnitude.
theorem exists_read?_positional (d : Decimal) (negative : Bool) :
    ∃ d' : Decimal,
      Numeral.read? ((if negative then ['-'] else []) ++ d.positional) = some ⟨negative, d'⟩ ∧
        d'.numerator = d.numerator ∧ d'.denominator = d.denominator := by
  by_cases h : 0 ≤ d.exponent
  case neg => exact ⟨d, read?_positional_fraction h negative, rfl, rfl⟩
  case pos =>
    have h0 : (-d.exponent).toNat = 0 := by omega
    refine ⟨_, read?_positional_whole h negative, ?_, ?_⟩
    · rw [numerator, numerator]
      simp
    · rw [denominator, denominator, h0]
      rfl

end Decimal

section Write

variable {x : Float}

theorem toList_write (h : x.isFinite) :
    (write x).toList = (if isNegative x then ['-'] else []) ++ (shortest .up (rank x)).positional := by
  have ⟨hn, hi⟩ := (isFinite_iff x).mp h
  rw [write, if_neg hn, if_neg hi, Layout.finite, String.toList_ofList, magnitude_plain]
  rfl

theorem trim_write (h : x.isFinite) : trim (write x) = write x := by
  refine trim_of_not_blank fun c hc hb => ?_
  rw [toList_write h] at hc
  cases List.mem_append.mp hc
  case inl hc =>
    obtain ⟨_, rfl⟩ : isNegative x ∧ c = '-' := by simpa using hc
    exact absurd hb (by decide)
  case inr hc =>
    exact not_isNumeral_of_isBlank hb (isNumeral_of_mem_isNumber (Decimal.isNumber_positional _) hc)

theorem isNumber_write (h : x.isFinite) (hs : isNegative x = false) : isNumber (write x).toList := by
  rw [toList_write h, hs]
  exact Decimal.isNumber_positional _

theorem read?_write (h : x.isFinite) : read? (write x) = some x := by
  have ⟨hn, hi⟩ := (isFinite_iff x).mp h
  obtain ⟨d, hr, hp, hq⟩ := (shortest .up (rank x)).exists_read?_positional (isNegative x)
  have hd : d.rank = rank x := by
    refine Decimal.rank_of_readsAs ?_ (rank_lt_infinityRank hn hi)
    rw [hp, hq]
    exact readsAs_shortest
  rw [read?_eq, trim_write h, toList_write h, hr, Option.map_some, Numeral.toFloat, hd, ofRank_rank]

theorem read?_write_eq_none (h : ¬x.isFinite) : read? (write x) = none := by
  rw [write]
  split
  case isTrue  => decide
  case isFalse hn =>
    have hi : x.isInf := Decidable.byContradiction fun hi => h ((isFinite_iff x).mpr ⟨hn, hi⟩)
    rw [if_pos hi]
    split <;> decide

end Write
end Number

-- A number may stand in parentheses.
theorem readAs_wrapped {cs : List Char} (h : isNumber cs) :
    ReadAs ('(' :: (cs ++ [')'])) [⟨.leftParen, "("⟩, ⟨.numeric, .ofList cs⟩, ⟨.rightParen, ")"⟩] := by
  intro rest _
  have hn := readAs_number h (')' :: rest) (delimits_cons (by decide) rest)
  calc
    idle.produce ('(' :: (cs ++ [')']) ++ rest)
    _ = idle.produce ('(' :: (cs ++ ')' :: rest)) := by simp
    _ = ⟨.leftParen, "("⟩ :: idle.produce (cs ++ ')' :: rest) := produce_idle '(' _
    _ = ⟨.leftParen, "("⟩ :: ⟨.numeric, .ofList cs⟩ :: idle.produce (')' :: rest) := by
      rw [hn]
      rfl
    _ = _ := by
      rw [produce_idle]
      rfl

namespace Grammar

variable {a : Token} {t : Tree}

theorem Atom.sentence (h : Atom a t) : Sentence [a] t where
  expression := .atom h
  nesting    := by simp [Polish.nesting, deepest, h.level]

theorem Atom.sentence_wrapped (h : Atom a t) :
    Sentence [⟨.leftParen, "("⟩, a, ⟨.rightParen, ")"⟩] t where
  expression := .wrapped rfl h rfl
  nesting    := by
    simp [Polish.nesting, deepest, h.level, Token.level_of_leftParen, Token.level_of_rightParen]

end Grammar

namespace Session

-- A source that spells a constant has it for its value and does nothing else.
theorem exec_const {source : String} {v : Value} (h : parse (tokenize source) = .ok (.const v))
    (m : Machine) :
    m.exec (Session.eval source) = (.ok v, m) ∧ m.exec (run source) = (.ok (some v), m) := by
  constructor
  case left  => rw [Session.eval, h]; rfl
  case right => rw [exec_run_of_parse h]; rfl

end Session

namespace Number

-- The sources that write a number down, bare or in parentheses, and their tokens.
inductive Writes (x : Float) : String → List Token → Prop
  | bare :
    Writes x (write x) [⟨.numeric, write x⟩]
  | wrapped :
    Writes x ("(" ++ write x ++ ")") [⟨.leftParen, "("⟩, ⟨.numeric, write x⟩, ⟨.rightParen, ")"⟩]

namespace Writes

variable {x : Float} {source : String} {ts : List Token}

theorem tokenize_eq (hs : Writes x source ts) (h : x.isFinite) (hn : isNegative x = false) :
    tokenize source = ts := by
  have hw := isNumber_write h hn
  refine ReadAs.tokenize_eq ?_
  cases hs
  case bare    => simpa using readAs_number hw
  case wrapped => simpa using readAs_wrapped hw

theorem parse_eq (hs : Writes x source ts) (h : x.isFinite) : parse ts = .ok (.const (.number x)) := by
  have ha := Grammar.Atom.numeral (read?_write h)
  cases hs
  case bare    => exact ha.sentence.parse_eq
  case wrapped => exact ha.sentence_wrapped.parse_eq

end Writes

theorem exec_converted (x : Float) {m m' : Machine} {t : Tree}
    (h : m.exec t.eval = (.ok (.number x), m')) :
    m.exec (Tree.apply .toNumeric [.apply .toText [t]]).eval =
      (if x.isFinite then .ok (.number x) else .error (.notNumeric (write x)), m') := by
  have ht := Tree.exec_converts .toText h
  simp only [Value.toText] at ht
  rw [Tree.exec_converts .toNumeric ht]
  by_cases hx : x.isFinite
  case pos => simp only [Value.toNumeric, read?_write hx, if_pos hx]
  case neg => simp only [Value.toNumeric, read?_write_eq_none hx, if_neg hx]

-- What is written are digits that no other magnitude is nearer to, and a reader takes the nearest.
theorem write_exact (x : Float) :
    (read? (write x) = if x.isFinite then some x else none) ∧
    (∀ (m m' : Machine) (t : Tree), m.exec t.eval = (.ok (.number x), m') →
      m.exec (Tree.apply .toNumeric [.apply .toText [t]]).eval =
        (if x.isFinite then .ok (.number x) else .error (.notNumeric (write x)), m')) ∧
    (x.isFinite → isNegative x = false → ∀ source ts, Writes x source ts →
      tokenize source = ts ∧ parse ts = .ok (.const (.number x)) ∧
        ∀ m : Machine, m.exec (Session.eval source) = (.ok (.number x), m) ∧
          m.exec (Session.run source) = (.ok (some (.number x)), m)) := by
  refine ⟨?_, fun _ _ _ => exec_converted x, fun h hn source ts hs => ?_⟩
  case refine_1 =>
    split
    case isTrue h  => exact read?_write h
    case isFalse h => exact read?_write_eq_none h
  case refine_2 =>
    have ht := hs.tokenize_eq h hn
    have hp := hs.parse_eq h
    exact ⟨ht, hp, Session.exec_const (ht.symm ▸ hp)⟩

-- The smallest number there is, found under a name, and one that is not finite.
theorem write_exact_smallest :
    let x := Float.ofBits 1
    let y := Float.ofBits 0xfff0000000000000
    let m : Machine := { env := Env.empty.set "x" (.number x), input := ⟨[], false⟩ }
    read? (write x) = some x ∧ read? (write y) = none ∧
    m.exec (Tree.apply .toNumeric [.apply .toText [.ident "x"]]).eval = (.ok (.number x), m) ∧
    m.exec (Tree.apply .toNumeric [.apply .toText [.const (.number y)]]).eval =
      (.error (.notNumeric "-inf"), m) ∧
    m.exec (Session.run ("(" ++ write x ++ ")")) = (.ok (some (.number x)), m) := by
  intro x y m
  have hx : x.isFinite := by decide +kernel
  have hn : isNegative x = false := by decide +kernel
  have hy : ¬y.isFinite := by decide +kernel
  have hw : write y = "-inf" := by decide +kernel
  have ⟨hr, hc, hs⟩ := write_exact x
  have ⟨hr', hc', _⟩ := write_exact y
  have ⟨_, _, he⟩ := hs hx hn _ _ .wrapped
  rw [if_pos hx] at hr hc
  rw [if_neg hy] at hr' hc'
  rw [hw] at hc'
  exact ⟨hr, hr', hc m m _ rfl, hc' m m _ rfl, (he m).right⟩

end Number
end Polish
