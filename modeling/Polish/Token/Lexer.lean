import Polish.Text.Blank
import Polish.Token

namespace Polish

open Text

-- What a lexer is in the middle of.
inductive Lexer
  | idle
  | comment
  | number  (text : String)
  | word    (text : String)
  | literal (text : String) (escaped : Bool)
deriving DecidableEq, Repr

namespace Lexer

-- The outcome of offering a character: the tokens it completes, and whether it is still to be
-- read.
structure Step where
  next   : Lexer
  tokens : List Token := []
  again  : Bool       := false
deriving DecidableEq, Repr

-- A word is trimmed before it is classified, and is no token if nothing is left.
def wordTokens (text : String) : List Token :=
  if (trim text).isEmpty then [] else [.ofWord (trim text)]

-- The text of a literal is kept as it is; an empty literal is no token.
def literalTokens (text : String) : List Token :=
  if text.isEmpty then [] else [⟨.string, text⟩]

def start (c : Char) : Step :=
  if c.isDigit then { next := .number (String.singleton c) }
  else if isSeparator c then { next := .idle }
  else match c with
    | '(' => { next := .idle, tokens := [⟨.leftParen, "("⟩] }
    | ')' => { next := .idle, tokens := [⟨.rightParen, ")"⟩] }
    | '"' => { next := .literal "" false }
    | '#' => { next := .comment }
    | _   => { next := .word (String.singleton c) }

-- The character that a backslash and `c` stand for.
def unescape (c : Char) : Char :=
  match c with
  | 'n' => '\n'
  | 't' => '\t'
  | 'r' => '\r'
  | 'f' => '\x0c'
  | 'v' => '\x0b'
  | _   => c

def endsWord (c : Char) : Bool :=
  isSeparator c || c == '(' || c == ')' || c == '#'

-- A number ends before any character but a digit or a point, a word before a separator, a
-- parenthesis or a comment. The character that ends one is offered once more.
def offer : Lexer → Char → Step
  | .idle, c =>
    start c
  | .comment, c =>
    { next := if c == '\n' then .idle else .comment }
  | .number text, c =>
    if c.isDigit || c == '.' then { next := .number (text.push c) }
    else { next := .idle, tokens := [⟨.numeric, text⟩], again := true }
  | .word text, c =>
    if endsWord c then { next := .idle, tokens := wordTokens text, again := true }
    else { next := .word (text.push c) }
  | .literal text true, c =>
    { next := .literal (text.push (unescape c)) false }
  | .literal text false, c =>
    if c == '\\' then { next := .literal text true }
    else if c == '"' then { next := .idle, tokens := literalTokens text }
    else { next := .literal (text.push c) false }

theorem not_again_start (c : Char) : (start c).again = false := by
  simp only [start]
  repeat' split
  all_goals rfl

-- A lexer that wants a character once more has put its token away.
theorem offer_next_of_again {l : Lexer} {c : Char} (h : (l.offer c).again) : (l.offer c).next = .idle := by
  fun_cases offer l c <;> simp_all [offer, not_again_start]

-- Offers a character until it is read, which the second offer never fails to do.
def feed (l : Lexer) (c : Char) : Lexer × List Token :=
  let first := l.offer c
  if first.again then
    let second := first.next.offer c
    (second.next, first.tokens ++ second.tokens)
  else
    (first.next, first.tokens)

-- Ends the text. What is being built is completed; only a literal without text stays open.
def finish : Lexer → Lexer × List Token
  | .idle                 => (.idle, [])
  | .comment              => (.idle, [])
  | .number text          => (.idle, [⟨.numeric, text⟩])
  | .word text            => (.idle, wordTokens text)
  | .literal text escaped => if text.isEmpty then (.literal text escaped, []) else (.idle, literalTokens text)

-- Feeds characters from the left, adding to the tokens that there are.
def runFrom (l : Lexer) (ts : Array Token) : List Char → Lexer × Array Token
  | []      => (l, ts)
  | c :: cs => (l.feed c).1.runFrom (ts ++ (l.feed c).2) cs

def run (l : Lexer) (cs : List Char) : Lexer × Array Token :=
  l.runFrom #[] cs

theorem runFrom_eq_run (l : Lexer) (ts : Array Token) (cs : List Char) :
    l.runFrom ts cs = ((l.run cs).1, ts ++ (l.run cs).2) := by
  induction cs generalizing l ts
  case nil          => simp [run, runFrom]
  case cons c cs hi =>
    simp only [run, runFrom] at hi ⊢
    rw [hi, hi _ ((#[] : Array Token) ++ (l.feed c).2)]
    simp [← Array.toList_inj]

-- A text is read by reading its parts in turn.
theorem run_append (l : Lexer) (cs ds : List Char) :
    l.run (cs ++ ds) = (((l.run cs).1.run ds).1, (l.run cs).2 ++ ((l.run cs).1.run ds).2) := by
  suffices h : ∀ ts, l.runFrom ts (cs ++ ds) = (l.runFrom ts cs).1.runFrom (l.runFrom ts cs).2 ds by
    rw [run, h #[], runFrom_eq_run, ← run]
  induction cs generalizing l
  case nil          => intro ts; rfl
  case cons c cs hi => intro ts; exact hi _ _

-- Reads a whole text: its tokens, and the lexer that is left for reading another.
def scan (l : Lexer) (source : String) : List Token × Lexer :=
  let (l, ts) := l.run source.toList
  ((ts ++ l.finish.2).toList, l.finish.1)

end Lexer

-- A lexer set on one text, with the tokens that are complete and have not been handed out.
structure Scanner where
  source : String
  lexer  : Lexer      := .idle
  tokens : List Token := []
deriving DecidableEq, Repr

namespace Scanner

-- Reads the text from its start and hands out all tokens. What the end of the text leaves open
-- stays open.
def scan (s : Scanner) : List Token × Scanner :=
  let (ts, l) := s.lexer.scan s.source
  (s.tokens ++ ts, { s with lexer := l, tokens := [] })

-- The tokens handed out each time, if the text is read several times over.
def scans (s : Scanner) : Nat → List (List Token)
  | 0     => []
  | n + 1 => s.scan.1 :: s.scan.2.scans n

end Scanner

def Lexer.scans (l : Lexer) (source : String) (n : Nat) : List (List Token) :=
  Scanner.scans { source, lexer := l } n

def tokenize (source : String) : List Token :=
  (Lexer.idle.scan source).1

end Polish
