import Multipoly.PolyRing
import Multipoly.Token

/-!
# Rejected lines

Why a line is no polynomial. A rejection names its cause and the cursor at which it was found.
-/
namespace Multipoly

/-- What the parser was doing when it met a character that starts no token. -/
inductive Reading where
  | advancing
  | peeking
  deriving DecidableEq, Repr

/-- Why a line is rejected. -/
inductive Cause where
  | unreadable (reading : Reading) (e : LexError)
  | unknownVariable (name : Char) (known : List Char)
  | badLiteral (digits : List Char) (domain : Domain) (e : NumeralError)
  /-- No integer follows the caret. -/
  | noExponent (found : Token)
  /-- No monomial follows its sign. -/
  | noMonomial (found : Token)
  /-- The parenthesis is not closed. -/
  | unclosed
  /-- The line ends where an operand should start. -/
  | noOperand
  /-- The line ends after a sign. -/
  | danglingMinus
  /-- A token that starts no operand and is no operator. -/
  | unexpected (found : Token)
  | noLeftOperand (operator : Mark)
  /-- A token follows the complete expression. -/
  | trailing (found : Token)

/-- The families of causes. -/
inductive CauseKind where
  /-- A character starts no token. -/
  | lexical
  /-- A mandatory token is missing. -/
  | expected
  /-- A token of the wrong sort. -/
  | unexpected
  /-- An operator lacks an operand, or text is left over. -/
  | structural
  deriving DecidableEq, Repr

def Cause.kind : Cause → CauseKind
  | unreadable .. => .lexical
  | noExponent _ | noMonomial _ | unclosed | noOperand => .expected
  | unknownVariable .. | badLiteral .. | unexpected _ => .unexpected
  | danglingMinus | noLeftOperand _ | trailing _ => .structural

/-- A cause, the line and the cursor; for a character that starts no token its offset. -/
structure Rejection where
  cause : Cause
  position : Nat
  line : List Char

/-- Why a line has no polynomial. -/
inductive ParseError where
  | rejected (r : Rejection)
  /-- An exponent is too long to be converted. -/
  | oversized (e : NumeralError)

/-! ## Messages -/

def Reading.describe : Reading → String
  | advancing => "getting next token"
  | peeking => "peeking next token"

def Cause.message : Cause → String
  | unreadable reading e => s!"Error received while {reading.describe} from lexer: {e.message}"
  | unknownVariable name known =>
    let names := ", ".intercalate (known.map String.singleton)
    s!"Received unknown variable '{name}', expected one of {names}"
  | badLiteral digits domain e =>
    s!"Literal {String.ofList digits} is not a {domain.symbol} value: {e.message}"
  | noExponent found => s!"Expected integer exponent after '^', found {found.describe}"
  | noMonomial found => s!"Expected a number or a variable, found {found.describe}"
  | unclosed => "Expected closing parenthesis ')' at end of expression"
  | noOperand => "Expected a number, a variable or '(' but the input ended"
  | danglingMinus => "Operator '-' has no operand"
  | unexpected found => s!"Unexpected token {found.describe}"
  | noLeftOperand operator => s!"Operator '{operator.char}' has no left operand"
  | trailing found => s!"Invalid syntax: unexpected {found.describe}"

end Multipoly
