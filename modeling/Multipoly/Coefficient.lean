import Multipoly.Binary64.Shortest
import Multipoly.Rational

/-!
# Coefficients

What a polynomial needs of its coefficients, and the three domains that provide it: integers,
rational numbers and doubles. Only the operations are asked for here, not their laws, for doubles
have none.
-/
namespace Multipoly

/-- The operations on coefficients. -/
class Coefficient (K : Type) extends Zero K, One K, Add K, Sub K, Mul K, BEq K where
  isNegative : K → Bool
  /-- The coefficient equal to an integer. -/
  ofInt : Int → Except RangeError K
  /-- The coefficient that a literal denotes. -/
  ofLiteral : List Char → Except NumeralError K
  /-- The nearest double. -/
  toFloat : K → Except RangeError Float
  /-- The text of a coefficient. -/
  text : K → List Char

namespace Coefficient
variable {K : Type} [Coefficient K]

def isZero (c : K) : Bool := c == 0

def isOne (c : K) : Bool := c == 1

/-- The difference from zero, which for doubles is never the negative zero when `c` is zero. -/
def negate (c : K) : K := 0 - c

def absolute (c : K) : K := if isNegative c then negate c else c

end Coefficient

/-- The double nearest to an integer. -/
def Binary64.ofInt (n : Int) : Except RangeError Float :=
  match Binary64.ofRatio? (n < 0) n.natAbs 1 with
  | some x => .ok x
  | none => .error .integer

/-- Integers. A literal with a point is refused, whatever stands after the point. -/
instance : Coefficient Int where
  zero := 0
  one := 1
  isNegative c := c < 0
  ofInt := .ok
  ofLiteral t := if t.contains '.' then .error (.pointInInteger t) else Numeral.readInt t
  toFloat := Binary64.ofInt
  text := Rational.intText

/-- Rational numbers. -/
instance : Coefficient Rat where
  zero := 0
  one := 1
  isNegative c := c < 0
  ofInt n := .ok n
  ofLiteral := Numeral.readFraction
  toFloat := Rational.toFloat
  text := Rational.display

/-- Doubles. A literal must denote a finite one. -/
instance : Coefficient Float where
  zero := 0
  one := 1
  isNegative c := c < 0
  ofInt := Binary64.ofInt
  ofLiteral t := do
    let x ← Numeral.readReal t
    if x.isFinite then .ok x else .error (.notFinite t)
  toFloat := .ok
  text := Binary64.text

/-! ## Domains -/

/-- The coefficient domains. -/
inductive Domain where
  | integer
  | rational
  | real
  deriving DecidableEq, Repr

namespace Domain

/-- The symbol of a domain. -/
def symbol : Domain → String
  | .integer => "ZZ"
  | .rational => "QQ"
  | .real => "RR"

/-- The domain that a symbol stands for. -/
def ofSymbol? : String → Option Domain
  | "ZZ" => some .integer
  | "QQ" => some .rational
  | "RR" => some .real
  | _ => none

/-- The numbers of a domain. -/
@[reducible] def Carrier : Domain → Type
  | .integer => Int
  | .rational => Rat
  | .real => Float

instance : (d : Domain) → Coefficient d.Carrier
  | .integer => inferInstanceAs (Coefficient Int)
  | .rational => inferInstanceAs (Coefficient Rat)
  | .real => inferInstanceAs (Coefficient Float)

/-- Whether numbers of two domains are equal. Integers compare by exact value with the other
domains; a rational number and a double are never equal. -/
def sameNumber : (d e : Domain) → d.Carrier → e.Carrier → Bool
  | .integer, .integer, a, b => a == b
  | .integer, .rational, a, b => (a : Rat) == b
  | .integer, .real, a, b => Binary64.toRat? b == some (a : Rat)
  | .rational, .integer, a, b => a == (b : Rat)
  | .rational, .rational, a, b => a == b
  | .rational, .real, _, _ => false
  | .real, .integer, a, b => Binary64.toRat? a == some (b : Rat)
  | .real, .rational, _, _ => false
  | .real, .real, a, b => a == b

/-- In the exact domains a number equals itself. -/
theorem sameNumber_self {d : Domain} (h : d ≠ .real) (a : d.Carrier) :
    sameNumber d d a a = true := by
  cases d with
  | integer => exact beq_self_eq_true a
  | rational => exact beq_self_eq_true a
  | real => exact absurd rfl h

/-- An integer is a coefficient of every exact domain. -/
theorem exists_ofInt {d : Domain} (h : d ≠ .real) (n : Int) :
    ∃ k : d.Carrier, Coefficient.ofInt n = .ok k := by
  cases d with
  | integer => exact ⟨n, rfl⟩
  | rational => exact ⟨(n : Rat), rfl⟩
  | real => exact absurd rfl h

end Domain
end Multipoly
