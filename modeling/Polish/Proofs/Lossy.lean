import Polish.Text.Utf8

namespace Polish.Text.Utf8

-- How octets complete a character, and its code point.
inductive Pending.Completes : Pending → List UInt8 → Nat → Prop
  | last {lo hi bits b code} :
    (lo ≤ b) → (b ≤ hi) → (bits * 64 + (b.toNat - 0x80) = code) →
    Completes ⟨0, lo, hi, bits⟩ [b] code
  | more {n lo hi bits b bs code} :
    (lo ≤ b) → (b ≤ hi) → Completes ⟨n, 0x80, 0xbf, bits * 64 + (b.toNat - 0x80)⟩ bs code →
    Completes ⟨n + 1, lo, hi, bits⟩ (b :: bs) code

namespace Decoder

-- The characters that octets come to after those of a character that is pending.
def decode (pending : Option Pending) (bytes : List UInt8) : List Char :=
  (bytes.foldl step ⟨"", pending⟩).finish.toList

theorem begin_text (text : String) (b : UInt8) :
    begin text b = ⟨text ++ (begin "" b).text, (begin "" b).pending⟩ := by
  simp only [begin]
  repeat' split
  all_goals simp

-- Octets are read without regard to the characters before them.
theorem step_text (text : String) (pending : Option Pending) (b : UInt8) :
    step ⟨text, pending⟩ b =
      ⟨text ++ (step ⟨"", pending⟩ b).text, (step ⟨"", pending⟩ b).pending⟩ := by
  cases pending
  case none   => exact begin_text text b
  case some p =>
    simp only [step]
    split
    case isTrue  => split <;> simp
    case isFalse =>
      rw [begin_text (text.push _), begin_text ("".push _)]
      simp [← String.toList_inj]

theorem toList_foldl (text : String) (pending : Option Pending) (bytes : List UInt8) :
    (bytes.foldl step ⟨text, pending⟩).finish.toList = text.toList ++ decode pending bytes := by
  induction bytes generalizing text pending
  case nil          => cases pending <;> simp [decode, finish]
  case cons b bs hi =>
    have hd := hi (step ⟨"", pending⟩ b).text (step ⟨"", pending⟩ b).pending
    rw [decode, List.foldl_cons, List.foldl_cons, step_text, hi, hd]
    simp

@[simp]
theorem decodeLossy_nil : decodeLossy [] = "" :=
  rfl

theorem toList_decodeLossy (bytes : List UInt8) : (decodeLossy bytes).toList = decode none bytes :=
  rfl

-- One equation for each thing that an octet may do.
section Steps

variable {p : Pending} {b : UInt8} {bytes : List UInt8}

theorem decode_cons (pending : Option Pending) (b : UInt8) (bytes : List UInt8) :
    decode pending (b :: bytes) =
      (step ⟨"", pending⟩ b).text.toList ++ decode (step ⟨"", pending⟩ b).pending bytes :=
  toList_foldl (step ⟨"", pending⟩ b).text (step ⟨"", pending⟩ b).pending bytes

theorem decode_end : decode (some p) [] = [replacement] := by
  simp [decode, finish]

theorem decode_ascii (h : b < 0x80) :
    decode none (b :: bytes) = Char.ofNat b.toNat :: decode none bytes := by
  simp [decode_cons, step, begin, h]

theorem decode_lead (h : ¬b < 0x80) (hp : Pending.ofLead? b = some p) :
    decode none (b :: bytes) = decode (some p) bytes := by
  simp [decode_cons, step, begin, h, hp]

theorem decode_stray (h : ¬b < 0x80) (hp : Pending.ofLead? b = none) :
    decode none (b :: bytes) = replacement :: decode none bytes := by
  simp [decode_cons, step, begin, h, hp]

theorem decode_last {lo hi : UInt8} {bits : Nat} (hl : lo ≤ b) (hh : b ≤ hi) :
    decode (some ⟨0, lo, hi, bits⟩) (b :: bytes) =
      Char.ofNat (bits * 64 + (b.toNat - 0x80)) :: decode none bytes := by
  simp [decode_cons, step, hl, hh]

theorem decode_more {n : Nat} {lo hi : UInt8} {bits : Nat} (hl : lo ≤ b) (hh : b ≤ hi) :
    decode (some ⟨n + 1, lo, hi, bits⟩) (b :: bytes) =
      decode (some ⟨n, 0x80, 0xbf, bits * 64 + (b.toNat - 0x80)⟩) bytes := by
  simp [decode_cons, step, hl, hh]

-- What cannot go on is replaced.
theorem decode_cut (h : ¬(p.lo ≤ b ∧ b ≤ p.hi)) :
    decode (some p) (b :: bytes) = replacement :: decode none (b :: bytes) := by
  have hs : step ⟨"", some p⟩ b = begin ("".push replacement) b := by simp [step, h]
  rw [decode_cons, decode_cons, hs, begin_text]
  simp [step]

end Steps

theorem decode_completes {p : Pending} {bs : List UInt8} {code : Nat} (h : p.Completes bs code)
    (rest : List UInt8) : decode (some p) (bs ++ rest) = Char.ofNat code :: decode none rest := by
  induction h
  case last hl hh hc   => exact hc ▸ decode_last hl hh
  case more hl hh _ hi => exact (decode_more hl hh).trans hi

end Decoder

section Encoding

variable {b : UInt8} {c : Char}

theorem encode_one (h : c.toNat < 0x80) : String.utf8EncodeChar c = [.ofNat c.toNat] := by
  have hc : c.val.toNat = c.toNat := rfl
  simp only [String.utf8EncodeChar, hc]
  rw [if_pos (by omega)]

theorem encode_two (hl : 0x80 ≤ c.toNat) (hh : c.toNat < 0x800) :
    String.utf8EncodeChar c = [.ofNat (c.toNat / 64 + 0xc0), .ofNat (c.toNat % 64 + 0x80)] := by
  have hc : c.val.toNat = c.toNat := rfl
  simp only [String.utf8EncodeChar, hc]
  rw [if_neg (by omega), if_pos (by omega), Nat.mod_eq_of_lt (b := 0x20) (by omega)]

theorem encode_three (hl : 0x800 ≤ c.toNat) (hh : c.toNat < 0x10000) :
    String.utf8EncodeChar c = [.ofNat (c.toNat / 4096 + 0xe0), .ofNat (c.toNat / 64 % 64 + 0x80),
      .ofNat (c.toNat % 64 + 0x80)] := by
  have hc : c.val.toNat = c.toNat := rfl
  simp only [String.utf8EncodeChar, hc]
  rw [if_neg (by omega), if_neg (by omega), if_pos (by omega), Nat.mod_eq_of_lt (b := 0x10) (by omega)]

theorem toNat_lt (c : Char) : c.toNat < 0x110000 := by
  have hc : c.toNat < 0xd800 ∨ 0xdfff < c.toNat ∧ c.toNat < 0x110000 := c.valid
  omega

theorem encode_four (h : 0x10000 ≤ c.toNat) :
    String.utf8EncodeChar c = [.ofNat (c.toNat / 262144 + 0xf0), .ofNat (c.toNat / 4096 % 64 + 0x80),
      .ofNat (c.toNat / 64 % 64 + 0x80), .ofNat (c.toNat % 64 + 0x80)] := by
  have hc : c.val.toNat = c.toNat := rfl
  have hh := toNat_lt c
  simp only [String.utf8EncodeChar, hc]
  rw [if_neg (by omega), if_neg (by omega), if_neg (by omega)]
  rw [Nat.mod_eq_of_lt (b := 0x08) (by omega)]

theorem ofNat_eq {n : Nat} (h : n = b.toNat) : UInt8.ofNat n = b := by
  rw [h, UInt8.ofNat_toNat]

theorem exists_char {n : Nat} (h : n < 0xd800 ∨ 0xdfff < n ∧ n < 0x110000) :
    ∃ c : Char, c.toNat = n := by
  refine ⟨Char.ofNat n, ?_⟩
  rw [Char.ofNat, dif_pos h]
  rfl

theorem toNat_ofNat {n : Nat} (h : n < 0x100) : (UInt8.ofNat n).toNat = n := by
  rw [UInt8.toNat_ofNat', Nat.mod_eq_of_lt h]

-- The second octet of a long character is narrowed after one first octet or another.
theorem narrow_le_iff {k x b' : UInt8} (hx : 0x80 ≤ x.toNat) :
    (if b = k then x else 0x80) ≤ b' ↔
      0x80 ≤ b'.toNat ∧ (b.toNat = k.toNat → x.toNat ≤ b'.toNat) := by
  rw [UInt8.le_iff_toNat_le, UInt8.toNat_inj]
  split
  case isTrue hb  => exact ⟨fun h => ⟨Nat.le_trans hx h, fun _ => h⟩, fun h => h.right hb⟩
  case isFalse hb => exact ⟨fun h => ⟨h, fun he => absurd he hb⟩, fun h => h.left⟩

theorem le_narrow_iff {k x b' : UInt8} (hx : x.toNat ≤ 0xbf) :
    b' ≤ (if b = k then x else 0xbf) ↔
      b'.toNat ≤ 0xbf ∧ (b.toNat = k.toNat → b'.toNat ≤ x.toNat) := by
  rw [UInt8.le_iff_toNat_le, UInt8.toNat_inj]
  split
  case isTrue hb  => exact ⟨fun h => ⟨Nat.le_trans h hx, fun _ => h⟩, fun h => h.right hb⟩
  case isFalse hb => exact ⟨fun h => ⟨h, fun he => absurd he hb⟩, fun h => h.left⟩

theorem ofLead?_two (hl : 0xc2 ≤ b.toNat) (hh : b.toNat < 0xe0) :
    Pending.ofLead? b = some ⟨0, 0x80, 0xbf, b.toNat - 0xc0⟩ := by
  simp only [Pending.ofLead?, UInt8.lt_iff_toNat_lt, UInt8.reduceToNat]
  rw [if_neg (by omega), if_pos (by omega)]

theorem ofLead?_three (hl : 0xe0 ≤ b.toNat) (hh : b.toNat < 0xf0) :
    Pending.ofLead? b = some ⟨1, if b = 0xe0 then 0xa0 else 0x80, if b = 0xed then 0x9f else 0xbf,
      b.toNat - 0xe0⟩ := by
  simp only [Pending.ofLead?, UInt8.lt_iff_toNat_lt, UInt8.reduceToNat]
  rw [if_neg (by omega), if_neg (by omega), if_pos (by omega)]

theorem ofLead?_four (hl : 0xf0 ≤ b.toNat) (hh : b.toNat < 0xf5) :
    Pending.ofLead? b = some ⟨2, if b = 0xf0 then 0x90 else 0x80, if b = 0xf4 then 0x8f else 0xbf,
      b.toNat - 0xf0⟩ := by
  simp only [Pending.ofLead?, UInt8.lt_iff_toNat_lt, UInt8.reduceToNat]
  rw [if_neg (by omega), if_neg (by omega), if_neg (by omega), if_pos (by omega)]

-- A character of more than one octet is announced by the first and completed by the others.
theorem exists_completes (h : 0x80 ≤ c.toNat) :
    ∃ b bs p, String.utf8EncodeChar c = b :: bs ∧ Pending.ofLead? b = some p ∧
      p.Completes bs c.toNat := by
  have hv : c.toNat < 0xd800 ∨ 0xdfff < c.toNat ∧ c.toNat < 0x110000 := c.valid
  have ht (n : Nat) : (UInt8.ofNat (n % 64 + 0x80)).toNat = n % 64 + 0x80 := toNat_ofNat (by omega)
  by_cases h₂ : c.toNat < 0x800
  case pos =>
    have hb := toNat_ofNat (n := c.toNat / 64 + 0xc0) (by omega)
    refine ⟨_, _, _, encode_two h h₂, ofLead?_two (by omega) (by omega), .last ?_ ?_ ?_⟩
    all_goals simp only [UInt8.le_iff_toNat_le, UInt8.reduceToNat, ht, hb]; omega
  by_cases h₃ : c.toNat < 0x10000
  case pos =>
    have hb := toNat_ofNat (n := c.toNat / 4096 + 0xe0) (by omega)
    refine ⟨_, _, _, encode_three (by omega) h₃, ofLead?_three (by omega) (by omega),
      .more ((narrow_le_iff (by decide)).mpr ?_) ((le_narrow_iff (by decide)).mpr ?_) (.last ?_ ?_ ?_)⟩
    all_goals simp only [UInt8.le_iff_toNat_le, UInt8.reduceToNat, ht, hb]; omega
  case neg =>
    have hb := toNat_ofNat (n := c.toNat / 262144 + 0xf0) (by omega)
    refine ⟨_, _, _, encode_four (by omega), ofLead?_four (by omega) (by omega),
      .more ((narrow_le_iff (by decide)).mpr ?_) ((le_narrow_iff (by decide)).mpr ?_)
        (.more ?_ ?_ (.last ?_ ?_ ?_))⟩
    all_goals simp only [UInt8.le_iff_toNat_le, UInt8.reduceToNat, ht, hb]; omega

-- The other way around, whatever is announced and completed is a character.
section Complete

variable {bs : List UInt8} {code : Nat}

theorem exists_encode_two (hl : 0xc2 ≤ b.toNat) (hh : b.toNat < 0xe0)
    (h : Pending.Completes ⟨0, 0x80, 0xbf, b.toNat - 0xc0⟩ bs code) :
    ∃ c : Char, c.toNat = code ∧ String.utf8EncodeChar c = b :: bs := by
  cases h
  case last b₂ hl₂ hh₂ hc =>
    simp only [UInt8.le_iff_toNat_le, UInt8.reduceToNat] at hl₂ hh₂
    obtain ⟨c, rfl⟩ := exists_char (n := code) (by omega)
    refine ⟨c, rfl, ?_⟩
    rw [encode_two (by omega) (by omega), ofNat_eq (b := b) (by omega), ofNat_eq (b := b₂) (by omega)]

theorem exists_encode_three (hl : 0xe0 ≤ b.toNat) (hh : b.toNat < 0xf0)
    (h : Pending.Completes ⟨1, if b = 0xe0 then 0xa0 else 0x80, if b = 0xed then 0x9f else 0xbf,
      b.toNat - 0xe0⟩ bs code) :
    ∃ c : Char, c.toNat = code ∧ String.utf8EncodeChar c = b :: bs := by
  rcases h with _ | ⟨hl₂, hh₂, ⟨hl₃, hh₃, hc⟩ | _⟩
  rename_i b₂ b₃
  rw [narrow_le_iff (by decide)] at hl₂
  rw [le_narrow_iff (by decide)] at hh₂
  simp only [UInt8.le_iff_toNat_le, UInt8.reduceToNat] at hl₂ hh₂ hl₃ hh₃
  obtain ⟨c, rfl⟩ := exists_char (n := code) (by omega)
  refine ⟨c, rfl, ?_⟩
  rw [encode_three (by omega) (by omega), ofNat_eq (b := b) (by omega),
    ofNat_eq (b := b₂) (by omega), ofNat_eq (b := b₃) (by omega)]

theorem exists_encode_four (hl : 0xf0 ≤ b.toNat) (hh : b.toNat < 0xf5)
    (h : Pending.Completes ⟨2, if b = 0xf0 then 0x90 else 0x80, if b = 0xf4 then 0x8f else 0xbf,
      b.toNat - 0xf0⟩ bs code) :
    ∃ c : Char, c.toNat = code ∧ String.utf8EncodeChar c = b :: bs := by
  rcases h with _ | ⟨hl₂, hh₂, _ | ⟨hl₃, hh₃, ⟨hl₄, hh₄, hc⟩ | _⟩⟩
  rename_i b₂ b₃ b₄
  rw [narrow_le_iff (by decide)] at hl₂
  rw [le_narrow_iff (by decide)] at hh₂
  simp only [UInt8.le_iff_toNat_le, UInt8.reduceToNat] at hl₂ hh₂ hl₃ hh₃ hl₄ hh₄
  obtain ⟨c, rfl⟩ := exists_char (n := code) (by omega)
  refine ⟨c, rfl, ?_⟩
  rw [encode_four (by omega), ofNat_eq (b := b) (by omega), ofNat_eq (b := b₂) (by omega),
    ofNat_eq (b := b₃) (by omega), ofNat_eq (b := b₄) (by omega)]

theorem exists_encode {p : Pending} (hp : Pending.ofLead? b = some p) (h : p.Completes bs code) :
    ∃ c : Char, c.toNat = code ∧ String.utf8EncodeChar c = b :: bs := by
  simp only [Pending.ofLead?, UInt8.lt_iff_toNat_lt, UInt8.reduceToNat] at hp
  split at hp
  case isTrue => cases hp
  split at hp
  case isTrue h₁ h₂ => cases hp; exact exists_encode_two (by omega) h₂ h
  split at hp
  case isTrue h₂ h₃ => cases hp; exact exists_encode_three (by omega) h₃ h
  split at hp
  case isTrue h₃ h₄ => cases hp; exact exists_encode_four (by omega) h₄ h
  case isFalse      => cases hp

end Complete
end Encoding

open Decoder

theorem not_ascii_of_lead {b : UInt8} {p : Pending} (h : Pending.ofLead? b = some p) : ¬b < 0x80 := by
  intro hb
  have hb : b < 0xc2 := UInt8.lt_trans hb (by decide)
  rw [Pending.ofLead?, if_pos hb] at h
  cases h

theorem decode_encode (c : Char) (rest : List UInt8) :
    decode none (String.utf8EncodeChar c ++ rest) = c :: decode none rest := by
  by_cases h : c.toNat < 0x80
  case pos =>
    have hb : (UInt8.ofNat c.toNat).toNat = c.toNat := toNat_ofNat (by omega)
    have hl : UInt8.ofNat c.toNat < 0x80 := by simpa [UInt8.lt_iff_toNat_lt, hb] using h
    rw [encode_one h, List.singleton_append, decode_ascii hl, hb, Char.ofNat_toNat]
  case neg =>
    obtain ⟨b, bs, p, he, hp, hc⟩ := exists_completes (Nat.le_of_not_lt h)
    rw [he, List.cons_append, decode_lead (not_ascii_of_lead hp) hp, decode_completes hc]
    rw [Char.ofNat_toNat]

-- No character's octets begin with those of another.
theorem encode_append_inj {c c' : Char} {rest rest' : List UInt8}
    (h : String.utf8EncodeChar c ++ rest = String.utf8EncodeChar c' ++ rest') :
    c = c' ∧ rest = rest' := by
  have hd := congrArg (decode none) h
  rw [decode_encode, decode_encode] at hd
  obtain ⟨rfl, _⟩ := List.cons.inj hd
  exact ⟨rfl, List.append_cancel_left h⟩

-- Octets that some character begins with.
def Opens (bs : List UInt8) : Prop :=
  ∃ c : Char, bs <+: String.utf8EncodeChar c

-- The longest octets, one at least, that begin a character where there is no whole one.
structure Subpart (bad rest : List UInt8) : Prop where
  ill     : ∀ c : Char, ¬String.utf8EncodeChar c <+: bad ++ rest
  opens   : (∃ b, bad = [b]) ∨ (bad ≠ [] ∧ Opens bad)
  longest : ∀ b ∈ rest.head?, ¬Opens (bad ++ [b])

-- Octets read as characters, with one replacement for each such part that is ill-formed.
inductive Lossy : List UInt8 → List Char → Prop
  | nil :
    Lossy [] []
  | char {c rest cs} :
    (Lossy rest cs) → Lossy (String.utf8EncodeChar c ++ rest) (c :: cs)
  | replaced {bad rest cs} :
    (Subpart bad rest) → (Lossy rest cs) → Lossy (bad ++ rest) (replacement :: cs)

-- The state of a decoder that has read these octets of a character.
structure Begins (bs : List UInt8) (p : Pending) : Prop where
  fits     : p.lo ≤ p.hi
  sound    : ∀ {more code}, (p.Completes more code) →
    ∃ c : Char, c.toNat = code ∧ String.utf8EncodeChar c = bs ++ more
  complete : ∀ {c : Char} {more}, (String.utf8EncodeChar c = bs ++ more) → p.Completes more c.toNat

theorem tail_le : (0x80 : UInt8) ≤ 0xbf := by
  decide

theorem lo_le_hi_of_lead {b : UInt8} {p : Pending} (h : Pending.ofLead? b = some p) : p.lo ≤ p.hi := by
  grind [Pending.ofLead?]

theorem exists_completion {p : Pending} (h : p.lo ≤ p.hi) : ∃ more code, p.Completes more code := by
  obtain ⟨n, lo, hi, bits⟩ := p
  induction n generalizing lo hi bits
  case zero      => exact ⟨_, _, .last (UInt8.le_refl _) h rfl⟩
  case succ n hi' =>
    obtain ⟨more, code, hc⟩ := hi' 0x80 0xbf (bits * 64 + (lo.toNat - 0x80)) tail_le
    exact ⟨_, _, .more (UInt8.le_refl _) h hc⟩

theorem ascii_of_encode {c : Char} {b : UInt8} {more : List UInt8} (h : c.toNat < 0x80)
    (he : String.utf8EncodeChar c = b :: more) : b < 0x80 := by
  rw [encode_one h] at he
  obtain ⟨rfl, _⟩ := List.cons.inj he
  rw [UInt8.lt_iff_toNat_lt, toNat_ofNat (by omega)]
  exact h

theorem begins_lead {b : UInt8} {p : Pending} (h : Pending.ofLead? b = some p) : Begins [b] p := by
  constructor
  case fits     => exact lo_le_hi_of_lead h
  case sound    => exact exists_encode h
  case complete =>
    intro c more he
    have hc : ¬c.toNat < 0x80 := fun hc => not_ascii_of_lead h (ascii_of_encode hc he)
    obtain ⟨_, _, _, he', hp, hc⟩ := exists_completes (Nat.le_of_not_lt hc)
    obtain ⟨rfl, rfl⟩ := List.cons.inj (he.symm.trans he')
    cases h.symm.trans hp
    exact hc

namespace Begins

variable {bs : List UInt8} {p : Pending} {b : UInt8}

theorem more {n : Nat} {lo hi : UInt8} {bits : Nat} (h : Begins bs ⟨n + 1, lo, hi, bits⟩) (hl : lo ≤ b)
    (hh : b ≤ hi) : Begins (bs ++ [b]) ⟨n, 0x80, 0xbf, bits * 64 + (b.toNat - 0x80)⟩ := by
  constructor
  case fits => exact tail_le
  case sound =>
    intro more code hc
    obtain ⟨c, hn, he⟩ := h.sound (.more hl hh hc)
    exact ⟨c, hn, by simpa using he⟩
  case complete =>
    intro c more he
    have hc := h.complete (he.trans (List.append_assoc ..))
    cases hc
    case more hc => exact hc

theorem exists_more (h : Begins bs p) : ∃ c more, String.utf8EncodeChar c = bs ++ more ∧ more ≠ [] := by
  obtain ⟨more, code, hc⟩ := exists_completion h.fits
  obtain ⟨c, _, he⟩ := h.sound hc
  exact ⟨c, more, he, by cases hc <;> nofun⟩

theorem opens (h : Begins bs p) : Opens bs := by
  obtain ⟨c, more, he, _⟩ := h.exists_more
  exact ⟨c, more, he.symm⟩

theorem next (h : Begins bs p) {c : Char} {more : List UInt8}
    (he : String.utf8EncodeChar c = bs ++ more) : ∃ b rest, more = b :: rest ∧ p.lo ≤ b ∧ b ≤ p.hi := by
  cases h.complete he
  case last hl hh _ => exact ⟨_, _, rfl, hl, hh⟩
  case more hl hh _ => exact ⟨_, _, rfl, hl, hh⟩

-- Where the octets of a character break off, they make the longest part that begins one.
theorem subpart (h : Begins bs p) (hb : bs ≠ []) {rest : List UInt8}
    (hr : ∀ b ∈ rest.head?, ¬(p.lo ≤ b ∧ b ≤ p.hi)) : Subpart bs rest := by
  constructor
  case opens   => exact .inr ⟨hb, h.opens⟩
  case longest =>
    rintro b hm ⟨c, more, he⟩
    obtain ⟨_, _, hb, hn⟩ := h.next ((List.append_assoc ..).symm.trans he).symm
    obtain ⟨rfl, _⟩ := List.cons.inj hb
    exact hr b hm hn
  case ill =>
    rintro c ⟨t, he⟩
    cases List.append_eq_append_iff.mp he
    case inl hx =>
      obtain ⟨as, rfl, rfl⟩ := hx
      obtain ⟨c', more, he', hn⟩ := h.exists_more
      rw [← List.append_nil (String.utf8EncodeChar c'), List.append_assoc] at he'
      have ⟨_, hm⟩ := encode_append_inj he'
      exact hn (List.append_eq_nil_iff.mp hm.symm).right
    case inr hx =>
      obtain ⟨as, he', rfl⟩ := hx
      obtain ⟨b, more, rfl, hn⟩ := h.next he'
      exact hr b rfl hn

end Begins

theorem subpart_stray {b : UInt8} (hb : ¬b < 0x80) (hp : Pending.ofLead? b = none) (rest : List UInt8) :
    Subpart [b] rest := by
  have hn (c : Char) (more : List UInt8) : String.utf8EncodeChar c ≠ b :: more := by
    intro he
    have hc : ¬c.toNat < 0x80 := fun hc => hb (ascii_of_encode hc he)
    obtain ⟨_, _, _, he', hp', _⟩ := exists_completes (Nat.le_of_not_lt hc)
    obtain ⟨rfl, _⟩ := List.cons.inj (he.symm.trans he')
    cases hp.symm.trans hp'
  constructor
  case opens   => exact .inl ⟨b, rfl⟩
  case longest =>
    rintro b' _ ⟨c, more, he⟩
    exact hn c _ he.symm
  case ill =>
    rintro c ⟨t, he⟩
    obtain ⟨b', more, hc⟩ := List.exists_cons_of_ne_nil (String.utf8EncodeChar_ne_nil (c := c))
    rw [hc] at he
    obtain ⟨rfl, _⟩ := List.cons.inj he
    exact hn c more hc

theorem toNat_of_ascii {b : UInt8} (h : b < 0x80) : (Char.ofNat b.toNat).toNat = b.toNat := by
  simp only [UInt8.lt_iff_toNat_lt, UInt8.reduceToNat] at h
  obtain ⟨c, hc⟩ := exists_char (n := b.toNat) (by omega)
  rw [← hc, Char.ofNat_toNat]

theorem encode_ascii {b : UInt8} (h : b < 0x80) : String.utf8EncodeChar (Char.ofNat b.toNat) = [b] := by
  have hb := toNat_of_ascii h
  rw [encode_one (by simpa [hb, UInt8.lt_iff_toNat_lt] using h), hb, UInt8.ofNat_toNat]

-- Induction on what is still to be read, both for a decoder that waits for a character and for one
-- that is in the middle of one.
theorem lossy_decode (bytes : List UInt8) :
    Lossy bytes (decode none bytes) ∧
      ∀ bs p, (bs ≠ []) → (Begins bs p) → Lossy (bs ++ bytes) (decode (some p) bytes) := by
  induction bytes
  case nil =>
    refine ⟨.nil, fun bs p hn hb => ?_⟩
    rw [decode_end]
    exact .replaced (hb.subpart hn (by simp)) .nil
  case cons b bytes hi =>
    have hd : Lossy (b :: bytes) (decode none (b :: bytes)) := by
      by_cases hb : b < 0x80
      case pos =>
        rw [decode_ascii hb]
        have := Lossy.char (c := Char.ofNat b.toNat) hi.left
        rwa [encode_ascii hb] at this
      case neg =>
        cases hp : Pending.ofLead? b
        case none =>
          rw [decode_stray hb hp]
          exact .replaced (subpart_stray hb hp bytes) hi.left
        case some p =>
          rw [decode_lead hb hp]
          exact hi.right [b] p nofun (begins_lead hp)
    refine ⟨hd, fun bs p hn h => ?_⟩
    by_cases hb : p.lo ≤ b ∧ b ≤ p.hi
    case neg =>
      rw [decode_cut hb]
      exact .replaced (h.subpart hn (by simpa using hb)) hd
    case pos =>
      obtain ⟨n, lo, hi', bits⟩ := p
      cases n
      case zero =>
        rw [decode_last hb.left hb.right]
        obtain ⟨c, hc, he⟩ := h.sound (.last hb.left hb.right rfl)
        rw [List.append_cons, ← he, ← hc, Char.ofNat_toNat]
        exact .char hi.left
      case succ n =>
        rw [decode_more hb.left hb.right, List.append_cons]
        exact hi.right _ _ (by simp) (h.more hb.left hb.right)

namespace Subpart

variable {bad bad' rest rest' : List UInt8}

theorem ne_nil (h : Subpart bad rest) : bad ≠ [] := by
  obtain ⟨b, rfl⟩ | ⟨hn, _⟩ := h.opens
  · nofun
  · exact hn

-- One that is longer would go on with what follows the other.
theorem length_le (h : Subpart bad rest) (h' : Subpart bad' rest') (he : bad ++ rest = bad' ++ rest') :
    bad'.length ≤ bad.length := by
  refine Nat.le_of_not_lt fun hl => ?_
  obtain ⟨more, hb⟩ : bad <+: bad' :=
    List.prefix_of_prefix_length_le ⟨rest, he⟩ ⟨rest', rfl⟩ (Nat.le_of_lt hl)
  subst hb
  rw [List.append_assoc] at he
  cases more
  case nil         => simp at hl
  case cons b more =>
    have hr : rest = b :: (more ++ rest') := List.append_cancel_left he
    refine h.longest b (by rw [hr]; rfl) ?_
    obtain ⟨b', hb⟩ | ⟨_, c, ho⟩ := h'.opens
    · have hl := congrArg List.length hb
      simp only [List.length_append, List.length_cons, List.length_nil] at hl
      exact absurd (List.eq_nil_of_length_eq_zero (by omega)) h.ne_nil
    · refine ⟨c, List.IsPrefix.trans ⟨more, ?_⟩ ho⟩
      simp

theorem unique (h : Subpart bad rest) (h' : Subpart bad' rest') (he : bad ++ rest = bad' ++ rest') :
    bad = bad' ∧ rest = rest' :=
  List.append_inj he (Nat.le_antisymm (h'.length_le h he.symm) (h.length_le h' he))

end Subpart

namespace Lossy

variable {bytes : List UInt8} {cs cs' : List Char}

theorem unique (h : Lossy bytes cs) (h' : Lossy bytes cs') : cs = cs' := by
  induction h generalizing cs'
  case nil =>
    generalize hb : [] = bytes at h'
    cases h'
    case nil            => rfl
    case char           => simp [String.utf8EncodeChar_ne_nil] at hb
    case replaced hs _  => simp [hs.ne_nil] at hb
  case char c rest cs hr hi =>
    generalize hb : String.utf8EncodeChar c ++ rest = bytes at h'
    cases h'
    case nil              => simp [String.utf8EncodeChar_ne_nil] at hb
    case replaced hs hr'  => exact (hs.ill c ⟨rest, hb⟩).elim
    case char hr'         =>
      obtain ⟨rfl, rfl⟩ := encode_append_inj hb
      rw [hi hr']
  case replaced bad rest cs hs hr hi =>
    generalize hb : bad ++ rest = bytes at h'
    cases h'
    case nil               => simp [hs.ne_nil] at hb
    case char c rest' _ _  => exact (hs.ill c ⟨rest', hb.symm⟩).elim
    case replaced hs' hr'  =>
      obtain ⟨rfl, rfl⟩ := hs.unique hs' hb
      rw [hi hr']

end Lossy

-- There is one such reading of any octets, which is the decoder's.
theorem lossy_iff (bytes : List UInt8) (cs : List Char) :
    Lossy bytes cs ↔ (decodeLossy bytes).toList = cs := by
  have h := (lossy_decode bytes).left
  constructor
  case mp  => exact h.unique
  case mpr => rintro rfl; exact h

-- What octets leave in their decoding: a character that is no replacement has all its octets there.
section Contents

variable {bytes : List UInt8} {cs : List Char}

theorem Lossy.mem_or_eq (h : Lossy bytes cs) {c : Char} (hc : c ∈ cs) :
    c = replacement ∨ ∀ b ∈ String.utf8EncodeChar c, b ∈ bytes := by
  induction h
  case nil => cases hc
  case char c' rest cs _ hi =>
    obtain rfl | hc := List.mem_cons.mp hc
    · exact .inr fun b hb => List.mem_append_left _ hb
    · exact (hi hc).imp_right fun h b hb => List.mem_append_right _ (h b hb)
  case replaced hi =>
    obtain rfl | hc := List.mem_cons.mp hc
    · exact .inl rfl
    · exact (hi hc).imp_right fun h b hb => List.mem_append_right _ (h b hb)

theorem Lossy.eq_nil (h : Lossy bytes []) : bytes = [] := by
  cases h
  rfl

theorem mem_decodeLossy {c : Char} (h : c ∈ (decodeLossy bytes).toList) :
    c = replacement ∨ ∀ b ∈ String.utf8EncodeChar c, b ∈ bytes :=
  (lossy_iff bytes _ |>.mpr rfl).mem_or_eq h

theorem octet_mem_of_mem_decodeLossy {c : Char} {b : UInt8} (h : c ∈ (decodeLossy bytes).toList)
    (he : String.utf8EncodeChar c = [b]) : b ∈ bytes := by
  obtain rfl | hm := mem_decodeLossy h
  · have hl : (String.utf8EncodeChar replacement).length = 3 := by decide
    rw [he] at hl
    cases hl
  · exact hm b (by simp [he])

theorem decodeLossy_ne_nil (h : bytes ≠ []) : (decodeLossy bytes).toList ≠ [] :=
  fun hn => h (lossy_iff bytes [] |>.mpr hn).eq_nil

theorem decodeLossy_encode (s : String) : decodeLossy (encode s) = s := by
  rw [← String.toList_inj, toList_decodeLossy, encode]
  induction s.toList
  case nil          => rfl
  case cons c cs hi => rw [List.flatMap_cons, decode_encode, hi]

end Contents

namespace Decoder

-- An octet of its own never completes a character.
section Ascii

variable {b : UInt8} {p : Pending}

theorem tail_le_of_lead (h : Pending.ofLead? b = some p) : 0x80 ≤ p.lo := by
  grind [Pending.ofLead?]

theorem tail_le_begin {text : String} (h : (begin text b).pending = some p) : 0x80 ≤ p.lo := by
  grind [begin, → tail_le_of_lead]

theorem tail_le_step {d : Decoder} (h : (d.step b).pending = some p) : 0x80 ≤ p.lo := by
  simp only [step] at h
  repeat' split at h
  all_goals first | exact tail_le_begin h | cases h
  exact UInt8.le_refl _

theorem decode_append_ascii {pending : Option Pending} (hp : ∀ p ∈ pending, 0x80 ≤ p.lo) (hb : b < 0x80)
    (xs ys : List UInt8) :
    decode pending (xs ++ b :: ys) = decode pending xs ++ Char.ofNat b.toNat :: decode none ys := by
  induction xs generalizing pending
  case nil =>
    cases pending
    case none   => exact decode_ascii hb
    case some p =>
      have hc : ¬(p.lo ≤ b ∧ b ≤ p.hi) := fun h =>
        UInt8.not_le.mpr hb (UInt8.le_trans (hp p rfl) h.left)
      rw [List.nil_append, decode_cut hc, decode_ascii hb, decode_end, List.singleton_append]
  case cons x xs hi =>
    rw [List.cons_append, decode_cons, hi fun p => tail_le_step, decode_cons _ x, List.append_assoc]

end Ascii
end Decoder

-- Octets may be cut before an octet of its own.
theorem decodeLossy_append_ascii {b : UInt8} (hb : b < 0x80) (xs ys : List UInt8) :
    (decodeLossy (xs ++ b :: ys)).toList =
      (decodeLossy xs).toList ++ Char.ofNat b.toNat :: (decodeLossy ys).toList :=
  decode_append_ascii (by simp) hb xs ys

end Polish.Text.Utf8
