import Multipoly.Proofs.MergeSteps
import Multipoly.Proofs.ZeroTerms

/-!
# Operands of different forms

A number can be given to an operator as a scalar, as a constant term or as a constant polynomial,
and a term as itself or as a polynomial. Each form takes its own way: a scalar multiplies the
coefficients where they are, a term is multiplied with every stored term and collapses the zero
ones, and a form on the left of a difference is added to the negated polynomial. The stored lists
differ by zero terms. Over the exact domains they denote the same, so the results are equal.

Results:
* `Poly.yields_plus`, `Poly.yields_minusFrom`, `Poly.yields_timesFrom`, ...: what an operator yields
  with an operand of any form;
* `Poly.Yields.equal`: results that denote the same are equal;
* `Poly.operand_forms_agree`: all forms on either side.
-/
namespace Multipoly
open MvPolynomial

variable {R : PolyRing}

/-- An operand of the ring, in any form, that denotes `f`. -/
inductive Operand.Denotes : Operand R → MvPolynomial (Fin R.arity) ℚ → Prop
  | scalar (k : R.Carrier) : Denotes (.scalar k) (C (R.domain.toRat k))
  | monomial {m : Monomial R} (hm : m.Fits) : Denotes (.monomial R m) m.denote
  | poly {q : Poly R} (hq : q.WellFormed) : Denotes (.poly R q) q.denote

namespace Poly

/-- The computation is not refused, and its result is well formed and denotes `f`. -/
def Yields {ε : Type} (o : Except ε (Poly R)) (f : MvPolynomial (Fin R.arity) ℚ) : Prop :=
  ∃ r, o = .ok r ∧ r.WellFormed ∧ r.denote = f

/-! ## Operands as polynomials -/

theorem denote_ofConstant (k : R.Carrier) :
    (constant k : Poly R).denote = C (R.domain.toRat k) := by
  rw [constant, denote_singleton, Monomial.denote_constant]

/-- Sums and differences take the terms of an operand as they take those of a polynomial. -/
theorem exists_poly_of_denotes {o : Operand R} {f : MvPolynomial (Fin R.arity) ℚ}
    (ho : o.Denotes f) : ∃ q : Poly R, q.WellFormed ∧ q.denote = f ∧
      ∀ p : Poly R, p.plus o = .ok (p.add q) ∧ p.minus o = .ok (p.sub q) := by
  cases ho with
  | scalar k =>
    exact ⟨constant k, .singleton (.constant k), denote_ofConstant k,
      fun p => ⟨plus_poly p (constant k), minus_poly p (constant k)⟩⟩
  | @monomial m hm =>
    exact ⟨⟨[m]⟩, .singleton hm, denote_singleton m,
      fun p => ⟨plus_poly p ⟨[m]⟩, minus_poly p ⟨[m]⟩⟩⟩
  | @poly q hq => exact ⟨q, hq, rfl, fun p => ⟨plus_poly p q, minus_poly p q⟩⟩

/-! ## The operators -/

section
variable (h : R.domain ≠ .real) {p : Poly R} (hp : p.WellFormed) {o : Operand R}
  {f : MvPolynomial (Fin R.arity) ℚ} (ho : o.Denotes f)
include h

theorem Yields.equal {ε : Type} {o o' : Except ε (Poly R)} (ho : Yields o f) (ho' : Yields o' f) :
    EqualResults o o' := by
  obtain ⟨r, hr, hwell, hdenote⟩ := ho
  obtain ⟨r', hr', hwell', hdenote'⟩ := ho'
  exact ⟨r, r', hr, hr', (same_iff_denote_eq h hwell hwell').2 (hdenote.trans hdenote'.symm)⟩

include hp ho

theorem yields_plus : Yields (p.plus o) (p.denote + f) := by
  obtain ⟨q, hq, rfl, hop⟩ := exists_poly_of_denotes ho
  exact ⟨_, (hop p).1, hp.add hq, denote_add h p q⟩

theorem yields_minus : Yields (p.minus o) (p.denote - f) := by
  obtain ⟨q, hq, rfl, hop⟩ := exists_poly_of_denotes ho
  exact ⟨_, (hop p).2, hp.sub hq, denote_sub h p q⟩

/-- The operand minus the polynomial. -/
theorem yields_minusFrom : Yields (minusFrom o p) (f - p.denote) := by
  have hsum := yields_plus h hp.neg ho
  rwa [denote_neg h, neg_add_eq_sub] at hsum

/-- A scalar multiplies the coefficients, another operand is multiplied term by term. -/
theorem yields_times : Yields (p.times o) (p.denote * f) := by
  cases ho with
  | scalar k => exact ⟨_, rfl, hp.scale k, denote_scale h p k⟩
  | @monomial m hm =>
    have hwell : WellFormed ⟨[m]⟩ := .singleton hm
    rw [← denote_singleton m]
    exact ⟨_, times_poly p ⟨[m]⟩, hp.mul hwell, denote_mul h hp hwell⟩
  | @poly q hq => exact ⟨_, times_poly p q, hp.mul hq, denote_mul h hp hq⟩

/-- The product with the operand on the left. -/
theorem yields_timesFrom : Yields (timesFrom o p) (f * p.denote) := by
  rw [mul_comm]
  cases ho with
  | scalar k => exact ⟨_, rfl, hp.scaleLeft k, scaleLeft_eq_scale h p k ▸ denote_scale h p k⟩
  | monomial hm => exact yields_times h hp (.monomial hm)
  | poly hq => exact yields_times h hp (.poly hq)

end

/-! ## Agreement -/

/-- The operators have equal results with either operand on the right. -/
structure AgreeRight (p : Poly R) (o o' : Operand R) : Prop where
  plus : EqualResults (p.plus o) (p.plus o')
  minus : EqualResults (p.minus o) (p.minus o')
  times : EqualResults (p.times o) (p.times o')

/-- An operand on the left of a polynomial has the results that the polynomial `c` has there. A sum
with the operand on the left is computed with the operand on the right. -/
structure AgreeLeft (p : Poly R) (o : Operand R) (c : Poly R) : Prop where
  plus : EqualResults (p.plus o) (c.plus (.poly R p))
  minus : EqualResults (minusFrom o p) (c.minus (.poly R p))
  times : EqualResults (timesFrom o p) (c.times (.poly R p))

section
variable (h : R.domain ≠ .real) {p : Poly R} (hp : p.WellFormed)
include h hp

theorem agreeRight_of_denotes {o o' : Operand R} {f : MvPolynomial (Fin R.arity) ℚ}
    (ho : o.Denotes f) (ho' : o'.Denotes f) : p.AgreeRight o o' where
  plus := (yields_plus h hp ho).equal h (yields_plus h hp ho')
  minus := (yields_minus h hp ho).equal h (yields_minus h hp ho')
  times := (yields_times h hp ho).equal h (yields_times h hp ho')

theorem agreeLeft_of_denotes {o : Operand R} {c : Poly R} (hc : c.WellFormed)
    (ho : o.Denotes c.denote) : p.AgreeLeft o c where
  plus := (yields_plus h hp ho).equal h (add_comm c.denote _ ▸ yields_plus h hc (.poly hp))
  minus := (yields_minusFrom h hp ho).equal h (yields_minus h hc (.poly hp))
  times := (yields_timesFrom h hp ho).equal h (yields_times h hc (.poly hp))

end

/-- A polynomial made of one term has this term. -/
theorem ofMonomials_singleton (m : Monomial R) : ofMonomials [⟨R, m⟩] = .ok ⟨[m]⟩ :=
  ofMonomials_eq [m]

/-- A scalar on the right of a sum, a difference or a product has the results of its constant term
and of the polynomial made of that term, and on the left those of this polynomial there. A term on
either side has the results of the polynomial made of it. `Poly.Reachable.wellFormed` and
`Monomial.granted_iff_fits` provide the hypotheses on the terms. -/
theorem operand_forms_agree (h : R.domain ≠ .real) {p : Poly R} (hp : p.WellFormed) :
    (∀ k : R.Carrier, ∃ c : Poly R, ofMonomials [⟨R, Monomial.constant k⟩] = .ok c ∧
      p.AgreeRight (.scalar k) (.monomial R (Monomial.constant k)) ∧
      p.AgreeRight (.scalar k) (.poly R c) ∧ p.AgreeLeft (.scalar k) c) ∧
    ∀ m : Monomial R, m.Fits → ∃ q : Poly R, ofMonomials [⟨R, m⟩] = .ok q ∧
      p.AgreeRight (.monomial R m) (.poly R q) ∧ p.AgreeLeft (.monomial R m) q := by
  constructor
  · intro k
    have hc : (constant k : Poly R).WellFormed := .singleton (.constant k)
    have hscalar : Operand.Denotes (.scalar k) (constant k : Poly R).denote :=
      denote_ofConstant k ▸ .scalar k
    have hterm : Operand.Denotes (.monomial R (Monomial.constant k)) (constant k : Poly R).denote :=
      denote_singleton (Monomial.constant k) ▸ .monomial (.constant k)
    exact ⟨constant k, ofMonomials_singleton _, agreeRight_of_denotes h hp hscalar hterm,
      agreeRight_of_denotes h hp hscalar (.poly hc), agreeLeft_of_denotes h hp hc hscalar⟩
  · intro m hm
    have hq : WellFormed ⟨[m]⟩ := .singleton hm
    have hterm : Operand.Denotes (.monomial R m) (denote ⟨[m]⟩) :=
      denote_singleton m ▸ .monomial hm
    exact ⟨⟨[m]⟩, ofMonomials_singleton m, agreeRight_of_denotes h hp hterm (.poly hq),
      agreeLeft_of_denotes h hp hq hterm⟩

/-- Three times `x + 0y` keeps the term `0y` for the scalar and stores a zero constant for the term;
the difference of `y` and `x + 0y` is computed both ways. -/
theorem operand_forms_agree_zero_term :
    let R : PolyRing := ⟨.integer, ['x', 'y'], by simp, by simp, by simp [alphabet]⟩
    let p : Poly R := ⟨[⟨(1 : Int), [1, 0]⟩, ⟨(0 : Int), [0, 1]⟩]⟩
    let y : Monomial R := ⟨(1 : Int), [0, 1]⟩
    R.domain ≠ .real ∧ p.WellFormed ∧ y.Fits ∧
      p.times (.scalar (3 : Int)) = .ok ⟨[⟨(3 : Int), [1, 0]⟩, ⟨(0 : Int), [0, 1]⟩]⟩ ∧
      p.times (.monomial R (Monomial.constant (3 : Int))) =
        .ok ⟨[⟨(3 : Int), [1, 0]⟩, ⟨(0 : Int), [0, 0]⟩]⟩ ∧
      p.AgreeRight (.scalar (3 : Int)) (.monomial R (Monomial.constant (3 : Int))) ∧
      p.AgreeRight (.monomial R y) (.poly R ⟨[y]⟩) ∧ p.AgreeLeft (.monomial R y) ⟨[y]⟩ := by
  intro R p y
  have hexact : R.domain ≠ .real := by decide
  have hp : p.WellFormed := ⟨by unfold Ordered; decide, by decide⟩
  have hy : y.Fits := by decide
  obtain ⟨hscalar, hterm⟩ := operand_forms_agree hexact hp
  obtain ⟨-, -, hright, -⟩ := hscalar (3 : Int)
  obtain ⟨q, hq, hright', hleft⟩ := hterm y hy
  cases hq
  exact ⟨hexact, hp, hy, rfl, rfl, hright, hright', hleft⟩

end Poly
end Multipoly
