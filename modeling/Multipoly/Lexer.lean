import Multipoly.Token

/-!
# Stepping through a line

A lexer stands at a cursor of a line, with the token it has just read. It can read on or look at
the next token; a token that was looked at is kept until it is read. A step that fails leaves the
lexer as it was.
-/
namespace Multipoly

structure Lexer where
  line : List Char
  /-- The letters that are read as variables. -/
  symbols : List Char
  /-- The text behind the cursor. -/
  rest : List Char
  token : Token
  /-- The next token and the text after it, once they were looked at. -/
  lookahead : Option (Token × List Char)

namespace Lexer

/-- A lexer at the start of a line, before its first token. -/
def ofLine (symbols line : List Char) : Lexer := ⟨line, symbols, line, .finish, none⟩

/-- The offset of the cursor. -/
def position (l : Lexer) : Nat := l.line.length - l.rest.length

/-- The token behind the cursor and the text after it. -/
def next (l : Lexer) : Except LexError (Token × List Char) :=
  match l.lookahead with
  | some found => .ok found
  | none => (Token.scan l.symbols l.rest).mapError (LexError.ofUnknown l.line)

/-- Moves on to the next token. -/
def advance (l : Lexer) : Except LexError Lexer :=
  l.next.map fun (token, rest) => { l with token, rest, lookahead := none }

/-- Looks at the next token. -/
def peek (l : Lexer) : Except LexError (Token × Lexer) :=
  l.next.map fun found => (found.1, { l with lookahead := some found })

inductive Step where
  | advance
  | peek
  deriving DecidableEq, Repr

/-- The token that a step answers, and the lexer after it. -/
def step (l : Lexer) : Step → Except LexError Token × Lexer
  | .advance =>
    match l.advance with
    | .ok l' => (.ok l'.token, l')
    | .error e => (.error e, l)
  | .peek =>
    match l.peek with
    | .ok (t, l') => (.ok t, l')
    | .error e => (.error e, l)

/-- The answer to each of several steps with the lexer after it. -/
def trace (l : Lexer) : List Step → List (Except LexError Token × Lexer)
  | [] => []
  | s :: steps =>
    let answer := l.step s
    answer :: answer.2.trace steps

end Lexer
end Multipoly
