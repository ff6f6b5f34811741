import Polish.Number.Layout

namespace Polish

inductive Value.Kind
  | numeric
  | string
  | none
deriving DecidableEq, Repr

namespace Value.Kind

def describe : Kind → String
  | .numeric => "numeric"
  | .string  => "string"
  | .none    => "none"

-- The name of a kind in dumps.
def label : Kind → String
  | .numeric => "Numeric"
  | .string  => "String"
  | .none    => "None"

end Value.Kind

inductive Value
  | none
  | number (x : Float)
  | text   (s : String)
deriving DecidableEq, Repr

namespace Value

def kind : Value → Kind
  | .none     => .none
  | .number _ => .numeric
  | .text _   => .string

def number? : Value → Option Float
  | .number x => some x
  | _         => Option.none

def text? : Value → Option String
  | .text s => some s
  | _       => Option.none

def isNone : Value → Bool
  | .none => true
  | _     => false

-- Values compare as numbers do: the two zeros agree, and an undefined number differs from
-- itself.
def agrees : Value → Value → Bool
  | .none,     .none     => true
  | .number x, .number y => x == y
  | .text s,   .text t   => s == t
  | _,         _         => false

-- What printing a value writes.
def display : Value → String
  | .none     => ""
  | .number x => Number.write x
  | .text s   => s

end Value
end Polish
