import Polish.Console

namespace Polish.Main

structure Options where
  file : Option String       := none
  view : Option Console.View := none

-- An option and its value may be written as one argument.
def splitOption (arg : String) : List String :=
  match arg.splitOn "=" with
  | name :: value :: more =>
    if name = "--file" || name = "--emit" then [name, "=".intercalate (value :: more)] else [arg]
  | _ => [arg]

def Options.parse? (o : Options) : List String → Option Options
  | []                           => some o
  | "-f" :: path :: rest         => { o with file := some path }.parse? rest
  | "--file" :: path :: rest     => { o with file := some path }.parse? rest
  | "--emit" :: "tokens" :: rest => { o with view := some .tokens }.parse? rest
  | "--emit" :: "ast" :: rest    => { o with view := some .tree }.parse? rest
  | _                            => none

def usage : String :=
  "usage: [--file PATH] [--emit tokens|ast]\n"

def put (bytes : List UInt8) : IO Unit := do
  let stdout ← IO.getStdout
  stdout.write ⟨bytes.toArray⟩
  stdout.flush

-- The octets through the next line feed; none at the end of the input.
partial def nextLine (line : List UInt8) : IO (List UInt8) := do
  match (← (← IO.getStdin).read 1).toList with
  | [b] => if b == lineFeed then return (b :: line).reverse else nextLine (b :: line)
  | _   => return line.reverse

partial def restOfInput (bytes : ByteArray) : IO (List UInt8) := do
  let chunk ← (← IO.getStdin).read 65536
  if chunk.isEmpty then return bytes.toList else restOfInput (bytes ++ chunk)

def readScript (path : String) : IO Script.Content := do
  try
    return .ok (← IO.FS.readBinFile path).toList
  catch
    | .noFileOrDirectory .. => return Script.absent
    | e                     => return .error (toString e)

-- Takes turns on the input as it arrives, round by round as in `Console.Serves`. Of the output, the
-- first `shown` octets have been shown.
partial def converse (c : Console) (shown : Nat) : IO Unit := do
  let (next, goesOn) := c.turn
  put (next.machine.output.written.drop shown)
  let shown := next.machine.output.written.length
  if c.waits then
    converse (c.arrive (← nextLine [])) shown
  else
    IO.eprint (c.newErrors next)
    if goesOn then converse next shown

-- Runs a source on the input as it arrives, as in `Eval.Arrives`.
partial def runSource (source : String) (m : Machine) (shown : Nat) :
    IO (Except Error (Option Value)) := do
  let (result, next) := m.exec (Session.run source)
  put (next.output.written.drop shown)
  if Source.wantsMore result then
    runSource source (m.arrive (← nextLine [])) next.output.written.length
  else
    return result

def finish (r : Report) : IO UInt32 := do
  put r.output
  IO.eprint r.errors
  return r.status.toUInt32

def runScript (path : String) : IO UInt32 := do
  match Script.load path (← readScript path) with
  | .error e   => finish (.ofRun [] (.error e : Except Error String))
  | .ok source =>
    let result ← runSource source { input := ⟨[], true⟩ } 0
    finish (.ofRun [] result)

end Polish.Main

open Polish Polish.Main in
def main (args : List String) : IO UInt32 := do
  match ({} : Options).parse? (args.flatMap splitOption) with
  | none   =>
    IO.eprint usage
    return 2
  | some o =>
    match o.view, o.file with
    | some view, some path => finish (Console.dumpScript view path (← readScript path))
    | some view, none      => finish (Console.dumpInput view (← restOfInput .empty))
    | none,      some path => runScript path
    | none,      none      =>
      converse .opening 0
      return 0
