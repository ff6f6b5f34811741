import Polish.Text.Range

namespace Polish.Text

-- Space, tab, carriage return, line feed and form feed.
def isSeparator (c : Char) : Bool :=
  c == ' ' || c == '\t' || c == '\r' || c == '\n' || c == '\x0c'

-- Unicode's `White_Space` property. Every separator has it, and the vertical tab, which separates
-- nothing, has it too.
def blankRanges : Ranges := [
  (0x0009, 0x000d), (0x0020, 0x0020), (0x0085, 0x0085), (0x00a0, 0x00a0), (0x1680, 0x1680),
  (0x2000, 0x200a), (0x2028, 0x2029), (0x202f, 0x202f), (0x205f, 0x205f), (0x3000, 0x3000)
]

def isBlank (c : Char) : Bool :=
  blankRanges.contains c.toNat

def trimStart (cs : List Char) : List Char :=
  cs.dropWhile isBlank

def trimEnd (cs : List Char) : List Char :=
  (cs.reverse.dropWhile isBlank).reverse

-- A text without the blanks at its two ends.
def trim (s : String) : String :=
  String.ofList (trimEnd (trimStart s.toList))

theorem toList_trim (s : String) : (trim s).toList = trimEnd (trimStart s.toList) := by
  simp [trim]

end Polish.Text
