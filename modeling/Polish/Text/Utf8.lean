namespace Polish.Text.Utf8

def encode (s : String) : List UInt8 :=
  s.toList.flatMap String.utf8EncodeChar

def replacement : Char := '\ufffd'

-- A character whose first octets have been read: the number of octets missing after the next one,
-- the octets allowed next, and the bits gathered so far.
structure Pending where
  missing : Nat
  lo      : UInt8
  hi      : UInt8
  bits    : Nat
deriving DecidableEq

-- What a first octet announces. Overlong forms, surrogates and code points past the last one are
-- ruled out by narrowing the second octet.
def Pending.ofLead? (b : UInt8) : Option Pending :=
  if b < 0xc2 then none
  else if b < 0xe0 then some ⟨0, 0x80, 0xbf, b.toNat - 0xc0⟩
  else if b < 0xf0 then
    some ⟨1, if b = 0xe0 then 0xa0 else 0x80, if b = 0xed then 0x9f else 0xbf, b.toNat - 0xe0⟩
  else if b < 0xf5 then
    some ⟨2, if b = 0xf0 then 0x90 else 0x80, if b = 0xf4 then 0x8f else 0xbf, b.toNat - 0xf0⟩
  else none

structure Decoder where
  text    : String         := ""
  pending : Option Pending := none

namespace Decoder

def begin (text : String) (b : UInt8) : Decoder :=
  if b < 0x80 then
    { text := text.push (Char.ofNat b.toNat) }
  else match Pending.ofLead? b with
    | some p => { text, pending := some p }
    | none   => { text := text.push replacement }

-- An octet that cannot continue a character ends it and is then read as a first octet.
def step (d : Decoder) (b : UInt8) : Decoder :=
  match d.pending with
  | none   => begin d.text b
  | some p =>
    if p.lo ≤ b && b ≤ p.hi then
      let bits := p.bits * 64 + (b.toNat - 0x80)
      match p.missing with
      | 0     => { text := d.text.push (Char.ofNat bits) }
      | n + 1 => { text := d.text, pending := some ⟨n, 0x80, 0xbf, bits⟩ }
    else
      begin (d.text.push replacement) b

def finish (d : Decoder) : String :=
  if d.pending.isSome then d.text.push replacement else d.text

end Decoder

-- The longest octets that begin a character and cannot complete it are replaced as one.
def decodeLossy (bytes : List UInt8) : String :=
  (bytes.foldl Decoder.step {}).finish

def decode? (bytes : List UInt8) : Option String :=
  String.fromUTF8? ⟨bytes.toArray⟩

end Polish.Text.Utf8
