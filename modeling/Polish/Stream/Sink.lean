import Polish.Error
import Polish.Text.Utf8

namespace Polish

structure Sink where
  written : List UInt8 := []
  -- How many octets are still accepted; any number if there is no limit.
  room    : Option Nat := none
deriving DecidableEq

namespace Sink

def fullError : Error :=
  .stream "sink is full"

-- A text that does not fit is written as far as it does.
def write (s : Sink) (text : String) : Except Error Unit × Sink :=
  let bytes := Text.Utf8.encode text
  match s.room with
  | none   => (.ok (), { s with written := s.written ++ bytes })
  | some n =>
    if bytes.length ≤ n then
      (.ok (), { written := s.written ++ bytes, room := some (n - bytes.length) })
    else
      (.error fullError, { written := s.written ++ bytes.take n, room := some 0 })

theorem write_result (s : Sink) (text : String) :
    (s.write text).1 = .ok () ∨ (s.write text).1 = .error fullError := by
  rw [write]
  split
  case h_1 => exact .inl rfl
  case h_2 => split <;> simp

theorem written_write (s : Sink) (text : String) : s.written <+: (s.write text).2.written := by
  rw [write]
  split
  case h_1 => exact List.prefix_append ..
  case h_2 => split <;> exact List.prefix_append ..

-- An empty text fits everywhere.
theorem write_empty (s : Sink) : s.write "" = (.ok (), s) := by
  obtain ⟨written, room⟩ := s
  cases room <;> simp [write, Text.Utf8.encode]

end Sink
end Polish
