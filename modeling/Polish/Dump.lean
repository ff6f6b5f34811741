import Polish.Token
import Polish.Tree

namespace Polish

-- A document; scalars are given by their text.
inductive Doc
  | scalar (text : String)
  | array  (items : List Doc)
  | object (fields : List (String × Doc))

namespace Doc

def escape (c : Char) : List Char :=
  match c with
  | '"'    => ['\\', '"']
  | '\\'   => ['\\', '\\']
  | '\x08' => ['\\', 'b']
  | '\t'   => ['\\', 't']
  | '\n'   => ['\\', 'n']
  | '\x0c' => ['\\', 'f']
  | '\r'   => ['\\', 'r']
  | _      =>
    if c.toNat < 0x20 then
      ['\\', 'u', '0', '0', Nat.digitChar (c.toNat / 16), Nat.digitChar (c.toNat % 16)]
    else
      [c]

def quote (s : String) : String :=
  String.ofList ('"' :: s.toList.flatMap escape ++ ['"'])

def string (s : String) : Doc :=
  .scalar (quote s)

-- Infinite and undefined numbers are null.
def number (x : Float) : Doc :=
  .scalar (if x.isFinite then Number.Layout.data.finite x else "null")

def newline (indent : Nat) : String :=
  "\n" ++ String.ofList (List.replicate indent ' ')

mutual

def render (indent : Nat) : Doc → String
  | .scalar text   => text
  | .array []      => "[]"
  | .array items   => "[" ++ renderItems (indent + 2) items ++ newline indent ++ "]"
  | .object []     => "\x7b\x7d"
  | .object fields => "\x7b" ++ renderFields (indent + 2) fields ++ newline indent ++ "\x7d"

def renderItems (indent : Nat) : List Doc → String
  | []          => ""
  | [d]         => newline indent ++ d.render indent
  | d :: e :: s => newline indent ++ d.render indent ++ "," ++ renderItems indent (e :: s)

def renderField (indent : Nat) : String × Doc → String
  | (key, d) => newline indent ++ quote key ++ ": " ++ d.render indent

def renderFields (indent : Nat) : List (String × Doc) → String
  | []          => ""
  | [f]         => renderField indent f
  | f :: g :: s => renderField indent f ++ "," ++ renderFields indent (g :: s)

end

end Doc

def Token.toDoc (t : Token) : Doc :=
  .object [("kind", .string t.kind.label), ("text", .string t.text)]

def Value.toDoc : Value → Doc
  | .none     => .string Value.Kind.none.label
  | .number x => .object [(Value.Kind.numeric.label, .number x)]
  | .text s   => .object [(Value.Kind.string.label, .string s)]

namespace Tree

mutual

def toDoc : Tree → Doc
  | .const v     => .object [((Tree.const v).label, v.toDoc)]
  | .ident name  => .object [((Tree.ident name).label, .string name)]
  | .apply op ts =>
    .object [((Tree.apply op ts).label,
      .object [("operator", .string op.label), ("children", .array (toDocs ts))])]

def toDocs : List Tree → List Doc
  | []      => []
  | t :: ts => t.toDoc :: toDocs ts

end

end Tree
end Polish
