import Polish.Dump
import Polish.Script
import Polish.Session

namespace Polish

structure Report where
  output : List UInt8
  errors : String := ""
  status : Nat    := 0

-- Reports on a run. A failure is told of, and a result is not.
def Report.ofRun {α : Type} (output : List UInt8) : Except Error α → Report
  | .ok _    => { output }
  | .error e => { output, errors := e.message ++ ".\n", status := 1 }

namespace Console

def version : String :=
  "0.1.0"

def help : String :=
  "Interactive loop help.\n" ++
  "\t:quit -> quit the interactive loop\n" ++
  "\t:clear_runtime -> clear all variables assigned\n" ++
  "\t:help -> display this help"

def banner : String :=
  "\t-*- e-lang -*-\nEnter \":help\" if you are lost.\n"

def prompt : String :=
  "\n> "

def farewell : String :=
  "\n"

def cleared : String :=
  "Runtime has been cleared.\n"

-- What the loop says about a line, and whether it goes on.
structure Reply where
  output : String := ""
  errors : String := ""
  goesOn : Bool   := true
deriving DecidableEq, Repr

def reply : Except Error Session.Outcome → Reply
  | .ok .skip             => {}
  | .ok .quit             => { goesOn := false }
  | .ok .cleared          => { output := cleared }
  | .ok .help             => { output := help ++ "\n" }
  | .ok (.value none)     => {}
  | .ok (.value (some v)) => if v.isNone then {} else { output := v.display ++ "\n" }
  | .error e              => { errors := e.message ++ ".\n" ++ cleared }

end Console

-- The interactive loop between two lines.
structure Console where
  machine : Machine
  errors  : String := ""

namespace Console

def say (c : Console) (text : String) : Console :=
  { c with machine.output := (c.machine.output.write text).2 }

def complain (c : Console) (text : String) : Console :=
  { c with errors := c.errors ++ text }

-- Prompts for a line, reads it from the input that evaluation shares, and obeys it.
def turn (c : Console) : Console × Bool :=
  let c := c.say prompt
  match c.machine.input.readLine with
  | (.error e, input) =>
    ({ c with machine.input := input }.complain ("Error reading input: " ++ e.detail ++ ".\n"), true)
  | (.ok none, input) =>
    ({ c with machine.input := input }.say farewell, false)
  | (.ok (some text), input) =>
    let (result, machine) := { c.machine with input }.exec (Session.line text)
    let r := reply result
    (({ c with machine }.say r.output).complain r.errors, r.goesOn)

-- Takes turns until one is the last, `n` of them at the most.
def turns : Nat → Console → Console
  | 0,     c => c
  | n + 1, c =>
    let (c, goesOn) := c.turn
    if goesOn then c.turns n else c

-- The console before any input has arrived.
def opening : Console :=
  ({ machine := { input := ⟨[], true⟩ } } : Console).say banner

def arrive (more : List UInt8) (c : Console) : Console :=
  { c with machine := c.machine.arrive more }

-- Whether a turn asks for octets that have not arrived. It then has to be taken again from its start
-- when there are more.
def waits (c : Console) : Bool :=
  match c.machine.input.readLine with
  | (.error _, _)            => true
  | (.ok none, _)            => false
  | (.ok (some text), input) =>
    Source.wantsMore ({ (c.say prompt).machine with input }.exec (Session.line text)).1

-- What has been complained of since the console was `c`.
def newErrors (c next : Console) : String :=
  String.ofList (next.errors.toList.drop c.errors.length)

-- The loop over a whole input. Every turn but the last takes an octet at least, so there are never
-- more turns than octets and one.
def interact (input : List UInt8) : Report :=
  let c := ({ machine := { input := ⟨input, false⟩ } } : Console).say banner
  let c := c.turns (input.length + 1)
  { output := c.machine.output.written, errors := c.errors }

def runScript (name : String) (content : Script.Content) (input : List UInt8) : Report :=
  match Script.load name content with
  | .error e   => .ofRun [] (.error e : Except Error String)
  | .ok source =>
    let (result, machine) := ({ input := ⟨input, false⟩ } : Machine).exec (Session.run source)
    .ofRun machine.output.written result

-- What a dump shows.
inductive View
  | tokens
  | tree
deriving DecidableEq, Repr

def View.dump (source : String) : View → Except Error Doc
  | .tokens => .ok (.array ((tokenize source).map Token.toDoc))
  | .tree   => (parse (tokenize source)).map Tree.toDoc

-- A dump of a source, or the reason why there is none.
def dump (view : View) (source : Except String String) : Report :=
  match source.bind fun s => (view.dump s).mapError Error.message with
  | .ok doc       => { output := Text.Utf8.encode (doc.render 0 ++ "\n") }
  | .error reason => { output := [], errors := "Error: " ++ reason ++ "\n", status := 1 }

-- A dump of the source that the input holds, as it stands.
def dumpInput (view : View) (input : List UInt8) : Report :=
  dump view <| match Text.Utf8.decode? input with
    | some source => .ok source
    | none        => .error ("cannot read stdin\n\nCaused by:\n    " ++ Script.notUtf8)

-- A dump of the source of a script.
def dumpScript (view : View) (name : String) (content : Script.Content) : Report :=
  dump view ((Script.load name content).mapError Error.message)

end Console
end Polish
