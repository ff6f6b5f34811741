import Polish.Stream.Source

namespace Polish

-- The chunks still to be read; the first is the one in the buffer.
structure Buffered where
  chunks : List (List UInt8)
  broken : Bool := false
deriving DecidableEq

namespace Buffered

def readWordFrom (broken : Bool) (word : List UInt8) :
    List (List UInt8) → Except Error (Option String) × Buffered
  | [] =>
    if broken then (.error Source.brokenError, ⟨[], broken⟩)
    else (.ok (if word.isEmpty then none else some (Text.Utf8.decodeLossy word)), ⟨[], broken⟩)
  | chunk :: chunks =>
    let chunk := if word.isEmpty then chunk.dropWhile isSpaceOctet else chunk
    let word := word ++ chunk.takeWhile (!isSpaceOctet ·)
    let rest := chunk.dropWhile (!isSpaceOctet ·)
    if rest.isEmpty then readWordFrom broken word chunks
    else (.ok (some (Text.Utf8.decodeLossy word)), ⟨rest :: chunks, broken⟩)

def readWord (b : Buffered) : Except Error (Option String) × Buffered :=
  readWordFrom b.broken [] b.chunks

def readLineFrom (broken : Bool) (line : List UInt8) :
    List (List UInt8) → Except Error (Option String) × Buffered
  | [] =>
    if broken then (.error Source.brokenError, ⟨[], broken⟩)
    else (.ok (if line.isEmpty then none else some (Text.Utf8.decodeLossy line)), ⟨[], broken⟩)
  | chunk :: chunks =>
    let line := line ++ chunk.takeWhile (· != lineFeed)
    match chunk.dropWhile (· != lineFeed) with
    | []           => readLineFrom broken line chunks
    | stop :: rest => (.ok (some (Text.Utf8.decodeLossy (line ++ [stop]))), ⟨rest :: chunks, broken⟩)

def readLine (b : Buffered) : Except Error (Option String) × Buffered :=
  readLineFrom b.broken [] b.chunks

-- Cuts octets into chunks of a given size, the last of which may be shorter.
def cut (size : Nat) (bytes : List UInt8) : List (List UInt8) :=
  if bytes.length ≤ size ∨ size = 0 then
    if bytes.isEmpty then [] else [bytes]
  else
    bytes.take size :: cut size (bytes.drop size)
termination_by bytes.length
decreasing_by simp; omega

theorem flatten_cut (size : Nat) (bytes : List UInt8) : (cut size bytes).flatten = bytes := by
  fun_induction cut size bytes
  case case1    => simp_all
  case case2    => simp
  case case3 hi => simp [hi]

end Buffered
end Polish
