import Multipoly.Expr
import Multipoly.Parser.Error

/-!
# Reading polynomials

A recursive descent over the tokens of a line:

* sum: `product (('+' | '-') product)*`;
* product: `factor ('*' factor)*`;
* factor: `'(' sum ')' ['^' integer]`, or `'-' factor`, or a run;
* run: `['-'] monomial (('+' | '-') monomial)*`, as long as the token after a sign starts a
  monomial;
* monomial: `number variable*` or `variable variable*`, where a variable is a letter with an
  optional `'^' integer`, and the last power of a repeated letter counts.

The tokens still to be read are the whole state, the end of the line being the empty list. A
phrase that is read leaves fewer tokens than it found, which is what makes the descent end; a
phrase that is rejected leaves the tokens at which it was rejected.

Groups and negations may be nested to any depth here. An interpreter with a bounded call stack gives
up on a line with some hundreds of open parentheses. At which depth it does so depends on the bound
and on the calls around the descent, not on the text alone, so this boundary is left out, as that of
memory is. The limit on the digits of an integer, `digitLimit`, is a rule of reading and is kept.
-/
namespace Multipoly

/-! ## Outcomes -/

/-- A phrase that was read, with fewer than `bound` tokens left; or the error, and the tokens at
which it arose. -/
inductive Outcome (α : Type) (bound : Nat) where
  | done (value : α) (rest : List Lexeme) (lt : rest.length < bound)
  | failed (e : ParseError) (rest : List Lexeme)

namespace Outcome
variable {α β : Type} {m n : Nat}

/-- Goes on reading after a phrase. -/
def andThen (o : Outcome α m) (f : α → (rest : List Lexeme) → rest.length < m → Outcome β n) :
    Outcome β n :=
  match o with
  | done value rest lt => f value rest lt
  | failed e rest => failed e rest

def map (f : α → β) : Outcome α n → Outcome β n
  | done value rest lt => done (f value) rest lt
  | failed e rest => failed e rest

/-- Forgets how many tokens were read. -/
def widen (h : m ≤ n) : Outcome α m → Outcome α n
  | done value rest lt => done value rest (Nat.lt_of_lt_of_le lt h)
  | failed e rest => failed e rest

/-- The tokens left. -/
def rest : Outcome α n → List Lexeme
  | done _ rest _ => rest
  | failed _ rest => rest

def toExcept : Outcome α n → Except ParseError α
  | done value _ _ => .ok value
  | failed e _ => .error e

end Outcome

namespace Line
variable (line : Line)

/-! ## The current token -/

/-- The first token left. -/
def current (ts : List Lexeme) : Token :=
  match ts with
  | [] => .finish
  | l :: _ => l.token

/-- The cursor just past the first token left. -/
def cursor (ts : List Lexeme) : Nat :=
  match ts with
  | [] => line.text.length
  | l :: _ => l.stop

/-- Rejects the line at the first token left. -/
def reject {α : Type} {n : Nat} (cause : Cause) (ts : List Lexeme) : Outcome α n :=
  .failed (.rejected ⟨cause, line.cursor ts, line.text⟩) ts

/-- The rejection of a character that starts no token. -/
def unreadable (reading : Reading) (e : LexError) : ParseError :=
  .rejected ⟨.unreadable reading e, e.position, line.text⟩

/-- The error that stands before these tokens, which are all that is left. -/
def faultBefore? (ts : List Lexeme) : Option LexError := if ts.isEmpty then line.fault else none

/-- Moves past a token; the character after it may start none. -/
def advance (l : Lexeme) (rest : List Lexeme) : Outcome Unit (rest.length + 1) :=
  match line.faultBefore? rest with
  | some e => .failed (line.unreadable .advancing e) (l :: rest)
  | none => .done () rest (Nat.lt_succ_self _)

/-- The first of the tokens that follow the current one. -/
def peek (rest : List Lexeme) : Except ParseError Token :=
  match line.faultBefore? rest with
  | some e => .error (line.unreadable .peeking e)
  | none => .ok (current rest)

/-- The tokens at the start of the line. -/
def start : Except ParseError (List Lexeme) :=
  match line.faultBefore? line.lexemes with
  | some e => .error (line.unreadable .advancing e)
  | none => .ok line.lexemes

/-! ## Monomials -/

variable (R : PolyRing)

/-- An exponent: a number without a point. -/
def exponent (ts : List Lexeme) : Outcome Nat ts.length :=
  match ts with
  | l :: rest =>
    match l.token with
    | .number digits =>
      if '.' ∈ digits then line.reject (.noExponent l.token) (l :: rest)
      else
        (line.advance l rest).andThen fun _ ts lt =>
          match Numeral.readInt digits with
          | .ok n => .done n.toNat ts lt
          | .error e => .failed (.oversized e) ts
    | t => line.reject (.noExponent t) (l :: rest)
  | [] => line.reject (.noExponent .finish) []

/-- The letter `v` at the token `l` with its exponent, recorded in the powers `u`. -/
def power (u : Powers) (v : Char) (l : Lexeme) (rest : List Lexeme) :
    Outcome Powers (rest.length + 1) :=
  match R.slot? v with
  | none => line.reject (.unknownVariable v R.vars) (l :: rest)
  | some slot =>
    (line.advance l rest).andThen fun _ ts lt =>
      match ts with
      | [] => .done (u.set slot 1) [] lt
      | c :: after =>
        if c.token = .mark .caret then
          (line.advance c after).andThen fun _ ts' lt' =>
            ((line.exponent ts').map (u.set slot ·)).widen (Nat.le_of_lt (Nat.lt_trans lt' lt))
        else .done (u.set slot 1) (c :: after) lt

/-- Letters with exponents, as many as there are. -/
def powers (u : Powers) (ts : List Lexeme) : Outcome Powers (ts.length + 1) :=
  match ts with
  | [] => .done u [] (Nat.lt_succ_self _)
  | l :: rest =>
    match l.token with
    | .letter v =>
      (line.power R u v l rest).andThen fun u ts lt =>
        (powers u ts).widen (Nat.le_succ_of_le (Nat.succ_le_of_lt lt))
    | _ => .done u (l :: rest) (Nat.lt_succ_self _)
termination_by ts.length

/-- A monomial without a sign. -/
def unsigned (ts : List Lexeme) : Outcome (Monomial R) ts.length :=
  match ts with
  | [] => line.reject (.noMonomial .finish) []
  | l :: rest =>
    match l.token with
    | .number digits =>
      match Coefficient.ofLiteral digits with
      | .error e => line.reject (.badLiteral digits R.domain e) (l :: rest)
      | .ok coeff =>
        (line.advance l rest).andThen fun _ ts lt =>
          ((line.powers R R.noPowers ts).map (⟨coeff, ·⟩)).widen lt
    | .letter v =>
      (line.power R R.noPowers v l rest).andThen fun u ts lt =>
        ((line.powers R u ts).map (⟨1, ·⟩)).widen lt
    | t => line.reject (.noMonomial t) (l :: rest)

/-- A monomial, which a minus sign may precede. -/
def monomial (ts : List Lexeme) : Outcome (Monomial R) ts.length :=
  match ts with
  | [] => line.unsigned R []
  | l :: rest =>
    if l.token = .mark .minus then
      (line.advance l rest).andThen fun _ ts lt =>
        ((line.unsigned R ts).map Monomial.neg).widen (Nat.le_of_lt lt)
    else line.unsigned R (l :: rest)

/-! ## Runs -/

/-- The sign that a token is. -/
def signOf? : Token → Option Sign
  | .mark .plus => some .plus
  | .mark .minus => some .minus
  | _ => none

/-- Signs with monomials, as long as a monomial follows the sign. -/
def runRest (ts : List Lexeme) : Outcome (Run R) (ts.length + 1) :=
  match ts with
  | [] => .done [] [] (Nat.lt_succ_self _)
  | l :: rest =>
    match signOf? l.token with
    | none => .done [] (l :: rest) (Nat.lt_succ_self _)
    | some s =>
      match line.peek rest with
      | .error e => .failed e (l :: rest)
      | .ok next =>
        if next.startsMonomial then
          (line.advance l rest).andThen fun _ ts lt =>
            (line.unsigned R ts).andThen fun m ts' lt' =>
              ((runRest ts').map ((s, m) :: ·)).widen (Nat.le_succ_of_le (Nat.lt_trans lt' lt))
        else .done [] (l :: rest) (Nat.lt_succ_self _)
termination_by ts.length
decreasing_by simp; omega

/-- A monomial with the sign in front of it, and the run that follows. -/
def runFrom (s : Sign) (ts : List Lexeme) : Outcome (Run R) ts.length :=
  (line.unsigned R ts).andThen fun m ts' lt =>
    ((line.runRest R ts').map ((s, m) :: ·)).widen lt

/-- A run, which may be empty. -/
def run (ts : List Lexeme) : Outcome (Run R) (ts.length + 1) :=
  if (current ts).startsMonomial then (line.runFrom R .plus ts).widen (Nat.le_succ _)
  else line.runRest R ts

/-! ## Expressions -/

/-- The end of a group that holds `e`, with an optional exponent. -/
def close (e : Expr R) (ts : List Lexeme) : Outcome (Expr R) ts.length :=
  match ts with
  | [] => line.reject .unclosed []
  | l :: rest =>
    if l.token = .mark .closing then
      (line.advance l rest).andThen fun _ ts lt =>
        match ts with
        | [] => .done e [] (Nat.zero_lt_succ _)
        | c :: after =>
          if c.token = .mark .caret then
            (line.advance c after).andThen fun _ ts' lt' =>
              ((line.exponent ts').map (.pow e)).widen (Nat.le_of_lt (Nat.lt_trans lt' lt))
          else .done e (c :: after) lt
    else line.reject .unclosed (l :: rest)

mutual

/-- A group with an optional exponent, a negated factor, or a run. -/
def factor (ts : List Lexeme) : Outcome (Expr R) ts.length :=
  match ts with
  | [] => line.reject .noOperand []
  | l :: rest =>
    match l.token with
    | .finish | .newline => line.reject .noOperand (l :: rest)
    | .number _ | .letter _ => (line.runFrom R .plus (l :: rest)).map .run
    | .mark .opening =>
      (line.advance l rest).andThen fun _ ts lt =>
        (sum ts).andThen fun e ts' lt' =>
          (line.close R e ts').widen (Nat.le_of_lt (Nat.lt_trans lt' lt))
    | .mark .minus =>
      match line.peek rest with
      | .error e => .failed e (l :: rest)
      | .ok next =>
        if next.endsLine then line.reject .danglingMinus (l :: rest)
        else
          (line.advance l rest).andThen fun _ ts lt =>
            if next.startsMonomial then
              ((line.runFrom R .minus ts).map .run).widen (Nat.le_of_lt lt)
            else ((factor ts).map .neg).widen (Nat.le_of_lt lt)
    | .mark .closing | .mark .period => line.reject (.unexpected l.token) (l :: rest)
    | .mark m => line.reject (.noLeftOperand m) (l :: rest)
termination_by (ts.length, 0)

/-- Factors joined by stars. -/
def product (ts : List Lexeme) : Outcome (Expr R) ts.length :=
  (factor ts).andThen fun e ts' lt => (productRest e ts').widen lt
termination_by (ts.length, 1)

/-- Multiplies `e` by the factors that follow. -/
def productRest (e : Expr R) (ts : List Lexeme) : Outcome (Expr R) (ts.length + 1) :=
  match ts with
  | [] => .done e [] (Nat.lt_succ_self _)
  | l :: rest =>
    if l.token = .mark .star then
      (line.advance l rest).andThen fun _ ts lt =>
        (factor ts).andThen fun e' ts' lt' =>
          (productRest (.mul e e') ts').widen (Nat.le_succ_of_le (Nat.lt_trans lt' lt))
    else .done e (l :: rest) (Nat.lt_succ_self _)
termination_by (ts.length, 0)

/-- Products joined by signs. -/
def sum (ts : List Lexeme) : Outcome (Expr R) ts.length :=
  (product ts).andThen fun e ts' lt => (sumRest e ts').widen lt
termination_by (ts.length, 2)

/-- Adds the products that follow to `e`, or subtracts them. -/
def sumRest (e : Expr R) (ts : List Lexeme) : Outcome (Expr R) (ts.length + 1) :=
  match ts with
  | [] => .done e [] (Nat.lt_succ_self _)
  | l :: rest =>
    match signOf? l.token with
    | some s =>
      (line.advance l rest).andThen fun _ ts lt =>
        (product ts).andThen fun e' ts' lt' =>
          (sumRest (s.join e e') ts').widen (Nat.le_succ_of_le (Nat.lt_trans lt' lt))
    | none => .done e (l :: rest) (Nat.lt_succ_self _)
termination_by (ts.length, 0)

end

/-! ## Lines -/

/-- Accepts the end of a line. -/
def expectEnd (ts : List Lexeme) : Outcome Unit (ts.length + 1) :=
  if (current ts).endsLine then .done () ts (Nat.lt_succ_self _)
  else line.reject (.trailing (current ts)) ts

/-- Skips line breaks. -/
def skipNewlines (ts : List Lexeme) : Outcome Unit (ts.length + 1) :=
  match ts with
  | [] => .done () [] (Nat.lt_succ_self _)
  | l :: rest =>
    if l.token = .newline then
      (line.advance l rest).andThen fun _ ts lt =>
        (skipNewlines ts).widen (Nat.le_succ_of_le (Nat.succ_le_of_lt lt))
    else .done () (l :: rest) (Nat.lt_succ_self _)
termination_by ts.length

/-- A sum on a line of its own, line breaks before it being skipped. A blank line is an empty
run. -/
def whole (ts : List Lexeme) : Outcome (Expr R) (ts.length + 1) :=
  (line.skipNewlines ts).andThen fun _ ts lt =>
    match ts with
    | [] => .done (.run []) [] (Nat.succ_pos _)
    | l :: rest =>
      (line.sum R (l :: rest)).andThen fun e ts' lt' =>
        ((line.expectEnd ts').map fun _ => e).widen (Nat.le_of_lt (Nat.lt_of_le_of_lt lt' lt))

/-- A monomial on a line of its own. -/
def wholeMonomial (ts : List Lexeme) : Outcome (Monomial R) ts.length :=
  (line.monomial R ts).andThen fun m ts' lt => ((line.expectEnd ts').map fun _ => m).widen lt

end Line

/-! ## Polynomials and monomials from text

A line is read with all letters of the alphabet as variables, whatever the ring; a letter that the
ring does not have is rejected where it stands. -/

/-- Reads a line as the polynomial that its expression denotes. -/
def Poly.read (R : PolyRing) (text : List Char) : Except ParseError (Poly R) := do
  let line := Line.scan alphabet text
  return (← (line.whole R (← line.start)).toExcept).value

/-- Reads a line that holds one monomial, with an optional minus sign. -/
def Monomial.read (R : PolyRing) (text : List Char) : Except ParseError (Monomial R) := do
  let line := Line.scan alphabet text
  (line.wholeMonomial R (← line.start)).toExcept

end Multipoly
