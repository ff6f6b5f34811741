import Polish.Error
import Polish.Text.Utf8

namespace Polish.Script

def dropReturns : List Char → List Char
  | '\r' :: '\n' :: cs => '\n' :: dropReturns cs
  | c :: cs            => c :: dropReturns cs
  | []                 => []

def terminate (cs : List Char) : List Char :=
  match cs.getLast? with
  | none | some '\n' => cs
  | some _           => cs ++ ['\n']

-- A line may end in a carriage return and a line feed, and the last one in nothing. As source text,
-- all of them end in a line feed alone.
def normalize (content : String) : String :=
  String.ofList (terminate (dropReturns content.toList))

-- What a reader says of octets that are not UTF-8.
def notUtf8 : String :=
  "stream did not contain valid UTF-8"

-- What a file holds, or why it cannot be opened.
abbrev Content := Except String (List UInt8)

def absent : Content :=
  .error "No such file or directory (os error 2)"

-- The source text of the file called `name`.
def load (name : String) (content : Content) : Except Error String :=
  match content.bind fun bytes => (Text.Utf8.decode? bytes).elim (.error notUtf8) .ok with
  | .ok text      => .ok (normalize text)
  | .error reason => .error (.stream ("cannot open file \"" ++ name ++ "\": " ++ reason))

end Polish.Script
