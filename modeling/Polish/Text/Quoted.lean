import Polish.Text.Unprintable

namespace Polish.Text

def isPrintable (c : Char) : Bool :=
  if c.toNat < 0x7f then 0x20 ≤ c.toNat else !unprintableRanges.contains c.toNat

-- Fillers show nothing. A sound mark does, although it belongs to the character before it.
example :
    ['\u115f', '\u1160', '\u3164', '\uffa0'].map isPrintable = [false, false, false, false] ∧
    ['\uff9e', '\uff9f'].map isPrintable = [true, true] := by
  decide +kernel

-- What stands for a character between quotes. One that a reader would not see is written by its code
-- point.
def escape (c : Char) : List Char :=
  match c with
  | '\x00' => ['\\', '0']
  | '\t'   => ['\\', 't']
  | '\r'   => ['\\', 'r']
  | '\n'   => ['\\', 'n']
  | '"'    => ['\\', '"']
  | '\\'   => ['\\', '\\']
  | _      => if isPrintable c then [c] else '\\' :: 'u' :: '\x7b' :: Nat.toDigits 16 c.toNat ++ ['\x7d']

def quote (s : String) : String :=
  String.ofList ('"' :: s.toList.flatMap escape ++ ['"'])

theorem toList_quote (s : String) : (quote s).toList = '"' :: s.toList.flatMap escape ++ ['"'] := by
  simp [quote]

end Polish.Text
