import Multipoly.Poly

/-!
# Expressions

What a line says, before it is computed. Neighbouring monomials that are joined by signs form a
run, in which a sign applies to the monomial after it alone; runs, powers and negations are
combined by products, sums and differences.
-/
namespace Multipoly

/-- The sign in front of a monomial. -/
inductive Sign where
  | plus
  | minus
  deriving DecidableEq, Repr

/-- Monomials with their signs. -/
abbrev Run (R : PolyRing) := List (Sign × Monomial R)

inductive Expr (R : PolyRing) where
  | run (monomials : Run R)
  | pow (base : Expr R) (exponent : Nat)
  | neg (e : Expr R)
  | mul (left right : Expr R)
  | add (left right : Expr R)
  | sub (left right : Expr R)

variable {R : PolyRing}

/-- Merges a monomial with its sign into a polynomial. -/
def Sign.merge (s : Sign) (p : Poly R) (m : Monomial R) : Poly R :=
  match s with
  | .plus => p.addTerm m
  | .minus => p.subTerm m

/-- The polynomial of a run. -/
def Run.value (monomials : Run R) : Poly R :=
  monomials.foldl (fun p (s, m) => s.merge p m) Poly.empty

/-- Joins two expressions by a sign. -/
def Sign.join : Sign → Expr R → Expr R → Expr R
  | .plus => .add
  | .minus => .sub

/-- The polynomial of an expression. -/
def Expr.value : Expr R → Poly R
  | run monomials => monomials.value
  | pow base exponent => base.value.pow exponent
  | neg e => e.value.neg
  | mul left right => left.value.mul right.value
  | add left right => left.value.add right.value
  | sub left right => left.value.sub right.value

end Multipoly
