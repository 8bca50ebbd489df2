import Multipoly.Lexer
import Multipoly.Parser

/-!
# The descent on a lexer

The recursive descent of `Multipoly.Parser`, made by stepping through a lexer in place of tokens that
were scanned beforehand: a token is scanned when the descent comes to it or looks at it.

Nothing here says that the descent ends. A call takes a depth: it makes its calls at the depth below,
a loop goes on at the depth below after each round, and at depth zero nothing is answered. That a
depth suffices for a line is a theorem.
-/
namespace Multipoly

/-- A phrase read on a lexer: its value or the error, with the lexer after it, unless the depth does
not suffice. -/
abbrev Descent (α : Type) := ExceptT ParseError (StateT Lexer Option) α

namespace Descent

/-! ## Steps of the lexer -/

section
variable {α : Type}

/-- What becomes of a phrase at a lexer. -/
def on (m : Descent α) (l : Lexer) : Option (Except ParseError α × Lexer) := m.run.run l

/-- The depth does not suffice. -/
def unfinished : Descent α := ExceptT.mk fun _ => none

def current : Descent Token := do return (← get).token

/-- Rejects the line at the cursor. -/
def reject (cause : Cause) : Descent α := do
  let l ← get
  throw (.rejected ⟨cause, l.position, l.line⟩)

/-- Rejects the line at a character that starts no token. -/
def unreadable (reading : Reading) (e : LexError) : Descent α :=
  throw (.rejected ⟨.unreadable reading e, e.position, e.line⟩)

def advance : Descent Unit := do
  match (← get).advance with
  | .ok l => set l
  | .error e => unreadable .advancing e

def peek : Descent Token := do
  match (← get).peek with
  | .ok (t, l) =>
    set l
    return t
  | .error e => unreadable .peeking e

end

/-! ## Monomials -/

/-- An exponent: a number without a point. -/
def exponent : Descent Nat := do
  match ← current with
  | .number digits =>
    if '.' ∈ digits then reject (.noExponent (.number digits))
    else
      advance
      match Numeral.readInt digits with
      | .ok n => return n.toNat
      | .error e => throw (.oversized e)
  | t => reject (.noExponent t)

variable (R : PolyRing)

/-- The letter `v` with its exponent, recorded in the powers `u`. -/
def power (u : Powers) (v : Char) : Descent Powers := do
  match R.slot? v with
  | none => reject (.unknownVariable v R.vars)
  | some slot =>
    advance
    if (← current) = .mark .caret then
      advance
      return u.set slot (← exponent)
    else return u.set slot 1

/-- Letters with exponents, as many as there are. -/
def powers : Nat → Powers → Descent Powers
  | 0, _ => unfinished
  | depth + 1, u => do
    match ← current with
    | .letter v => powers depth (← power R u v)
    | _ => return u

/-- A monomial without a sign. -/
def unsigned (depth : Nat) : Descent (Monomial R) := do
  match ← current with
  | .number digits =>
    match Coefficient.ofLiteral digits with
    | .error e => reject (.badLiteral digits R.domain e)
    | .ok coeff =>
      advance
      return ⟨coeff, ← powers R depth R.noPowers⟩
  | .letter _ => return ⟨1, ← powers R depth R.noPowers⟩
  | t => reject (.noMonomial t)

/-- A monomial, which a minus sign may precede. -/
def monomial (depth : Nat) : Descent (Monomial R) := do
  if (← current) = .mark .minus then
    advance
    return (← unsigned R depth).neg
  else unsigned R depth

/-! ## Runs -/

/-- Monomials with their signs, as long as a monomial follows the sign; the `first` one needs no
sign. -/
def monomials : Nat → Bool → Descent (Run R)
  | 0, _ => unfinished
  | depth + 1, first => do
    let t ← current
    match Line.signOf? t with
    | some s =>
      if (← peek).startsMonomial then
        advance
        let m ← monomial R depth
        return (s, m) :: (← monomials depth false)
      else return []
    | none =>
      if first && t.startsMonomial then
        let m ← monomial R depth
        return (.plus, m) :: (← monomials depth false)
      else return []

/-- A run, which may be empty. -/
def run (depth : Nat) : Descent (Run R) := monomials R depth true

/-! ## Expressions -/

/-- The end of a group that holds `e`, with an optional exponent. -/
def close (e : Expr R) : Descent (Expr R) := do
  if (← current) = .mark .closing then
    advance
    if (← current) = .mark .caret then
      advance
      return .pow e (← exponent)
    else return e
  else reject .unclosed

/-- A group with an optional exponent, a negated factor, or a run, where `factor` and `sum` stand for
the calls that it makes of a factor and of a sum. -/
def factorWith (depth : Nat) (factor sum : Descent (Expr R)) : Descent (Expr R) := do
  let t ← current
  match t with
  | .finish | .newline => reject .noOperand
  | .number _ | .letter _ => return .run (← run R depth)
  | .mark .opening =>
    advance
    close R (← sum)
  | .mark .minus =>
    let next ← peek
    if next.startsMonomial then return .run (← run R depth)
    else if next.endsLine then reject .danglingMinus
    else
      advance
      return .neg (← factor)
  | .mark .closing | .mark .period => reject (.unexpected t)
  | .mark m => reject (.noLeftOperand m)

mutual

def factor : Nat → Descent (Expr R)
  | 0 => unfinished
  | depth + 1 => factorWith R depth (factor depth) (sum depth)

/-- Factors joined by stars. -/
def product : Nat → Descent (Expr R)
  | 0 => unfinished
  | depth + 1 => do productRest depth (← factor depth)

/-- Multiplies `e` by the factors that follow. -/
def productRest : Nat → Expr R → Descent (Expr R)
  | 0, _ => unfinished
  | depth + 1, e => do
    if (← current) = .mark .star then
      advance
      productRest depth (.mul e (← factor depth))
    else return e

/-- Products joined by signs. -/
def sum : Nat → Descent (Expr R)
  | 0 => unfinished
  | depth + 1 => do sumRest depth (← product depth)

/-- Adds the products that follow to `e`, or subtracts them. -/
def sumRest : Nat → Expr R → Descent (Expr R)
  | 0, _ => unfinished
  | depth + 1, e => do
    match Line.signOf? (← current) with
    | some s =>
      advance
      sumRest depth (s.join e (← product depth))
    | none => return e

end

/-! ## Lines -/

/-- Accepts the end of a line. -/
def expectEnd : Descent Unit := do
  let t ← current
  if t.endsLine then return () else reject (.trailing t)

/-- Skips line breaks. -/
def skipNewlines : Nat → Descent Unit
  | 0 => unfinished
  | depth + 1 => do
    if (← current) = .newline then
      advance
      skipNewlines depth
    else return ()

/-- A sum on a line of its own, line breaks before it being skipped. A blank line is an empty
run. -/
def whole (depth : Nat) : Descent (Expr R) := do
  skipNewlines depth
  if (← current) = .finish then return .run []
  else
    let e ← sum R depth
    expectEnd
    return e

end Descent
end Multipoly
