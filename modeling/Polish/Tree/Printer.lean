import Polish.Text.Quoted
import Polish.Tree

namespace Polish.Tree

def renderValue : Value → String
  | .none     => "null"
  | .number x => Number.write x
  | .text s   => Text.quote s

mutual

def render : Tree → String
  | .const v     => renderValue v
  | .ident name  => name
  | .apply op ts => "(" ++ op.spelling ++ renderAll ts ++ ")"

-- Each tree with a space before it.
def renderAll : List Tree → String
  | []      => ""
  | t :: ts => " " ++ t.render ++ renderAll ts

end

end Polish.Tree
