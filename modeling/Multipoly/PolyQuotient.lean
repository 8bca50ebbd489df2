import Multipoly.Parser

/-!
# Quotients of polynomials

A numerator with a denominator that is not zero, kept as they are given.
-/
namespace Multipoly

structure PolyQuotient (R : PolyRing) where
  numer : Poly R
  denom : Poly R
  denom_ne_zero : denom.isZero = false

/-- Why two texts are no quotient. -/
inductive QuotientError where
  | parse (e : ParseError)
  | zeroDenominator

/-- The refusal of a zero denominator. -/
def QuotientError.zeroMessage : String := "denominator polynomial is zero"

namespace PolyQuotient
variable {R : PolyRing}

/-- The quotient of two polynomials, unless the denominator is zero. -/
def of? (numer denom : Poly R) : Option (PolyQuotient R) :=
  if h : denom.isZero = false then some ⟨numer, denom, h⟩ else none

/-- Reads the numerator, then the denominator. -/
def read (R : PolyRing) (numer denom : List Char) : Except QuotientError (PolyQuotient R) := do
  let p ← (Poly.read R numer).mapError .parse
  let q ← (Poly.read R denom).mapError .parse
  match of? p q with
  | some quotient => return quotient
  | none => throw .zeroDenominator

/-- Numerator and denominator in parentheses. -/
def text (q : PolyQuotient R) : List Char :=
  '(' :: q.numer.text ++ [')', '/', '('] ++ q.denom.text ++ [')']

/-- The text of the quotient, unless one of its numbers is too long. -/
def write (q : PolyQuotient R) : Except Oversized (List Char) := Numeral.written q.text

end PolyQuotient
end Multipoly
