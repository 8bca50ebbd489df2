import Multipoly.Coefficient

/-!
# Coefficient systems

The systems that a caller may name: the three domains, and the bare one. The bare system has
rational numbers with their texts and doubles, but declares no constants, so that nothing can be
computed in it.
-/
namespace Multipoly

inductive CoefficientSystem where
  | bare
  | domain (d : Domain)
  deriving DecidableEq, Repr

namespace CoefficientSystem

@[reducible] def Carrier : CoefficientSystem → Type
  | bare => Rat
  | domain d => d.Carrier

/-- The operations of a system, if it has them. -/
def operations? : (s : CoefficientSystem) → Option (Coefficient s.Carrier)
  | bare => none
  | domain d => some (inferInstanceAs (Coefficient d.Carrier))

/-- The text of a value. The bare system writes quotients, never decimals. -/
def text : (s : CoefficientSystem) → s.Carrier → List Char
  | bare, q => Rational.text q
  | domain _, c => Coefficient.text c

/-- The text of a value, unless one of its numbers is too long. -/
def write (s : CoefficientSystem) (c : s.Carrier) : Except Oversized (List Char) :=
  Numeral.written (s.text c)

def toFloat : (s : CoefficientSystem) → s.Carrier → Except RangeError Float
  | bare, q => Rational.toFloat q
  | domain _, c => Coefficient.toFloat c

/-- The short name of a system. -/
def symbol : CoefficientSystem → String
  | bare => "ring"
  | domain d => d.symbol

/-- The long name of a system. -/
def label : CoefficientSystem → String
  | bare => "CoefficientRing()"
  | domain .integer => "IntegerRing()"
  | domain .rational => "RationalField()"
  | domain .real => "RealField()"

end CoefficientSystem
end Multipoly
