import Multipoly.Poly

/-!
# Operands of any ring

A polynomial is combined with a scalar of its domain, or with a term or a polynomial of any ring.
Merging or multiplying terms of different rings is refused, at the first term that is met; so an
operand without terms is never refused.

Updates in place keep the polynomial as it is at the moment of a refusal.
-/
namespace Multipoly

/-- What a polynomial of `R` is combined with. -/
inductive Operand (R : PolyRing) where
  | scalar (k : R.Carrier)
  | monomial (S : PolyRing) (m : Monomial S)
  | poly (S : PolyRing) (q : Poly S)

namespace Operand
variable {R : PolyRing}

/-- The ring that the terms of an operand belong to. -/
def ring : Operand R → PolyRing
  | .scalar _ => R
  | .monomial S _ => S
  | .poly S _ => S

/-- The terms of an operand; a scalar is a constant term. -/
def terms : (o : Operand R) → List (Monomial o.ring)
  | .scalar k => [Monomial.constant k]
  | .monomial _ m => [m]
  | .poly _ q => q.terms

end Operand

/-- A change of a polynomial in place that may be refused. -/
abbrev Update (R : PolyRing) := ExceptT RingError (StateM (Poly R)) Unit

/-- The outcome of an update and the polynomial that it leaves. -/
def Update.apply {R : PolyRing} (u : Update R) (p : Poly R) : Except RingError Unit × Poly R :=
  u.run.run p

/-- The result of an update on a copy. -/
def Update.on {R : PolyRing} (u : Update R) (p : Poly R) : Except RingError (Poly R) :=
  let (outcome, p') := u.apply p
  outcome.map fun _ => p'

namespace Poly
variable {R S : PolyRing}

/-! ## Updates -/

/-- Merges a term of any ring by `f`. -/
def mergeAny (f : Poly R → Monomial R → Poly R) (m : Monomial S) : Update R :=
  if h : S = R then modify (f · (m.cast h)) else throw (.foreignTerm S R)

def addMonomial (m : Monomial S) : Update R := mergeAny addTerm m

def subMonomial (m : Monomial S) : Update R := mergeAny subTerm m

/-- Adds the terms of an operand one by one. -/
def increase (o : Operand R) : Update R := o.terms.forM addMonomial

/-- Subtracts the terms of an operand one by one. -/
def decrease (o : Operand R) : Update R := o.terms.forM subMonomial

/-! ## Sums, differences and products -/

def plus (p : Poly R) (o : Operand R) : Except RingError (Poly R) := (increase o).on p

def minus (p : Poly R) (o : Operand R) : Except RingError (Poly R) := (decrease o).on p

/-- The operand minus the polynomial, which is the negated polynomial plus the operand. -/
def minusFrom (o : Operand R) (p : Poly R) : Except RingError (Poly R) := p.neg.plus o

/-- Merges the product of two terms of any rings into `product`. -/
def addProduct (product : Poly R) (m : Monomial R) (n : Monomial S) : Except RingError (Poly R) :=
  (m.mulAny n).map product.addTerm

/-- The product. A scalar scales the coefficients and zero terms keep their powers; any other
operand is multiplied term by term. -/
def times (p : Poly R) : Operand R → Except RingError (Poly R)
  | .scalar k => .ok (p.scale k)
  | o => p.terms.foldlM (fun product m => o.terms.foldlM (addProduct · m) product) empty

/-- The product with the operand on the left: a scalar stands left of each coefficient, and a
term is multiplied as if it stood on the right. -/
def timesFrom (o : Operand R) (p : Poly R) : Except RingError (Poly R) :=
  match o with
  | .scalar k => .ok (p.scaleLeft k)
  | o => p.times o

/-- Merges terms of any rings, in order. -/
def ofMonomials (ms : List ((S : PolyRing) × Monomial S)) : Except RingError (Poly R) :=
  Update.on (ms.forM fun ⟨_, m⟩ => addMonomial m) empty

end Poly
end Multipoly
