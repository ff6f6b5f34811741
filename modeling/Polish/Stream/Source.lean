import Polish.Error
import Polish.Text.Utf8

namespace Polish

-- The octets of space, tab, line feed, form feed and carriage return.
def isSpaceOctet (b : UInt8) : Bool :=
  b == 0x20 || b == 0x09 || b == 0x0a || b == 0x0c || b == 0x0d

def lineFeed : UInt8 := 0x0a

-- A source ends after its last octet, or else is broken there. What a failed call had read is lost.
structure Source where
  bytes  : List UInt8
  broken : Bool := false
deriving DecidableEq

namespace Source

def brokenError : Error :=
  .stream "source is broken"

-- The longest run of octets that are no space, after the spaces before it. The space that ends
-- the run stays in the source.
def readWord (s : Source) : Except Error (Option String) × Source :=
  let start := s.bytes.dropWhile isSpaceOctet
  let word := start.takeWhile (!isSpaceOctet ·)
  let rest := start.dropWhile (!isSpaceOctet ·)
  if rest.isEmpty && s.broken then
    (.error brokenError, { s with bytes := [] })
  else
    (.ok (if word.isEmpty then none else some (Text.Utf8.decodeLossy word)), { s with bytes := rest })

theorem readWord_result (s : Source) :
    (∃ word, s.readWord.1 = .ok word) ∨ s.readWord.1 = .error brokenError := by
  rw [readWord]
  split
  case isTrue  => exact .inr rfl
  case isFalse => exact .inl ⟨_, rfl⟩

-- The octets through the next line feed, or all of them if there is none.
def readLine (s : Source) : Except Error (Option String) × Source :=
  let line := s.bytes.takeWhile (· != lineFeed)
  match s.bytes.dropWhile (· != lineFeed) with
  | stop :: rest => (.ok (some (Text.Utf8.decodeLossy (line ++ [stop]))), { s with bytes := rest })
  | [] =>
    if s.broken then
      (.error brokenError, { s with bytes := [] })
    else
      (.ok (if line.isEmpty then none else some (Text.Utf8.decodeLossy line)), { s with bytes := [] })

-- A break also stands for octets that have not arrived. None do at the end of the input, and then
-- the source just ends.
def arrive (more : List UInt8) (s : Source) : Source where
  bytes  := s.bytes ++ more
  broken := s.broken && !more.isEmpty

-- Whether octets past the break have been asked for.
def wantsMore {α : Type} : Except Error α → Bool
  | .error e => e = brokenError
  | .ok _    => false

end Source
end Polish
