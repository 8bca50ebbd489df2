import Multipoly.Proofs.Denotation
import Multipoly.Proofs.SameRing

/-!
# The laws of a commutative ring

The two sides of a law are computed by different merges, so they may keep different zero terms. They
denote the same element of the polynomial ring, where the law is known to hold, and well-formed
polynomials that denote the same are equal and have the same text.

Results:
* `Poly.alike_of_denote_eq`: equality of denotations is enough for all laws;
* `Poly.alike_add_assoc`, `Poly.alike_mul_comm`, ...: the laws one by one;
* `Poly.ring_laws`: all of them, with what the operators of the program compute.
-/
namespace Multipoly
variable {R : PolyRing}

namespace Poly

/-- Equal by value, and with the same text, so that they are written or refused alike. -/
def Alike (p q : Poly R) : Prop := p.same q = true ∧ p.text = q.text

/-! ## Laws -/

section
variable (h : R.domain ≠ .real) {a b c : Poly R}
include h

theorem alike_of_denote_eq (ha : a.WellFormed) (hb : b.WellFormed) (heq : a.denote = b.denote) :
    a.Alike b :=
  ⟨(same_iff_denote_eq h ha hb).2 heq, text_eq_of_nonzero_eq (nonzero_eq_of_denote_eq h ha hb heq)⟩

theorem alike_add_assoc (ha : a.WellFormed) (hb : b.WellFormed) (hc : c.WellFormed) :
    ((a.add b).add c).Alike (a.add (b.add c)) := by
  refine alike_of_denote_eq h ((ha.add hb).add hc) (ha.add (hb.add hc)) ?_
  simp only [denote_add h]
  exact add_assoc _ _ _

theorem alike_add_comm (ha : a.WellFormed) (hb : b.WellFormed) :
    (a.add b).Alike (b.add a) := by
  refine alike_of_denote_eq h (ha.add hb) (hb.add ha) ?_
  rw [denote_add h, denote_add h, add_comm]

theorem alike_sub (ha : a.WellFormed) (hb : b.WellFormed) :
    (a.sub b).Alike (a.add b.neg) := by
  refine alike_of_denote_eq h (ha.sub hb) (ha.add hb.neg) ?_
  rw [denote_sub h, denote_add h, denote_neg h, sub_eq_add_neg]

theorem alike_add_neg (ha : a.WellFormed) : (a.add a.neg).Alike empty := by
  refine alike_of_denote_eq h (ha.add ha.neg) .empty ?_
  rw [denote_add h, denote_neg h, denote_empty, add_neg_cancel]

theorem alike_mul_comm (ha : a.WellFormed) (hb : b.WellFormed) :
    (a.mul b).Alike (b.mul a) := by
  refine alike_of_denote_eq h (ha.mul hb) (hb.mul ha) ?_
  rw [denote_mul h ha hb, denote_mul h hb ha, mul_comm]

theorem alike_mul_assoc (ha : a.WellFormed) (hb : b.WellFormed) (hc : c.WellFormed) :
    ((a.mul b).mul c).Alike (a.mul (b.mul c)) := by
  refine alike_of_denote_eq h ((ha.mul hb).mul hc) (ha.mul (hb.mul hc)) ?_
  rw [denote_mul h (ha.mul hb) hc, denote_mul h ha hb, denote_mul h ha (hb.mul hc),
    denote_mul h hb hc, mul_assoc]

theorem alike_mul_add (ha : a.WellFormed) (hb : b.WellFormed) (hc : c.WellFormed) :
    (a.mul (b.add c)).Alike ((a.mul b).add (a.mul c)) := by
  refine alike_of_denote_eq h (ha.mul (hb.add hc)) ((ha.mul hb).add (ha.mul hc)) ?_
  rw [denote_mul h ha (hb.add hc), denote_add h, denote_add h, denote_mul h ha hb,
    denote_mul h ha hc, mul_add]

theorem alike_one_mul (ha : a.WellFormed) : (one.mul a).Alike a := by
  refine alike_of_denote_eq h (WellFormed.one.mul ha) ha ?_
  rw [denote_mul h .one ha, denote_one h, one_mul]

theorem alike_pow_add (ha : a.WellFormed) (m n : Nat) :
    (a.pow (m + n)).Alike ((a.pow m).mul (a.pow n)) := by
  refine alike_of_denote_eq h (ha.pow _) ((ha.pow m).mul (ha.pow n)) ?_
  rw [denote_mul h (ha.pow m) (ha.pow n), denote_pow h ha, denote_pow h ha, denote_pow h ha,
    pow_add]

theorem alike_pow_mul (ha : a.WellFormed) (m n : Nat) :
    ((a.pow m).pow n).Alike (a.pow (m * n)) := by
  refine alike_of_denote_eq h ((ha.pow m).pow n) (ha.pow _) ?_
  rw [denote_pow h (ha.pow m), denote_pow h ha, denote_pow h ha, pow_mul]

theorem alike_mul_pow (ha : a.WellFormed) (hb : b.WellFormed) (n : Nat) :
    ((a.mul b).pow n).Alike ((a.pow n).mul (b.pow n)) := by
  refine alike_of_denote_eq h ((ha.mul hb).pow n) ((ha.pow n).mul (hb.pow n)) ?_
  rw [denote_pow h (ha.mul hb), denote_mul h ha hb, denote_mul h (ha.pow n) (hb.pow n),
    denote_pow h ha, denote_pow h hb, mul_pow]

end

/-- The operators on polynomials of one ring are never refused, and over the exact domains they obey
the laws of a commutative ring: the two sides of each law are equal and have the same text.
`Poly.Reachable.wellFormed` provides the hypotheses on the terms. -/
theorem ring_laws (h : R.domain ≠ .real) {a b c : Poly R} (ha : a.WellFormed) (hb : b.WellFormed)
    (hc : c.WellFormed) (m n : Nat) :
    (∀ p q : Poly R, p.plus (.poly R q) = .ok (p.add q) ∧ p.minus (.poly R q) = .ok (p.sub q) ∧
      p.times (.poly R q) = .ok (p.mul q)) ∧
    (∀ (p : Poly R) (k : Nat), p.powInt k = .ok (p.pow k)) ∧
    ((a.add b).add c).Alike (a.add (b.add c)) ∧
    (a.add b).Alike (b.add a) ∧
    (a.mul b).Alike (b.mul a) ∧
    ((a.mul b).mul c).Alike (a.mul (b.mul c)) ∧
    (a.mul (b.add c)).Alike ((a.mul b).add (a.mul c)) ∧
    (a.sub b).Alike (a.add b.neg) ∧
    (a.add a.neg).Alike empty ∧
    (one.mul a).Alike a ∧
    (a.pow (m + n)).Alike ((a.pow m).mul (a.pow n)) ∧
    ((a.pow m).pow n).Alike (a.pow (m * n)) ∧
    ((a.mul b).pow n).Alike ((a.pow n).mul (b.pow n)) :=
  ⟨fun p q => ⟨plus_poly p q, minus_poly p q, times_poly p q⟩, fun _ _ => rfl,
    alike_add_assoc h ha hb hc, alike_add_comm h ha hb, alike_mul_comm h ha hb,
    alike_mul_assoc h ha hb hc, alike_mul_add h ha hb hc, alike_sub h ha hb, alike_add_neg h ha,
    alike_one_mul h ha, alike_pow_add h ha m n, alike_pow_mul h ha m n, alike_mul_pow h ha hb n⟩

/-- Over `x + y`, the terms `x` and `-x` cancel before the product or after it, which leaves
different zero terms. -/
theorem ring_laws_cancelling :
    let R : PolyRing := ⟨.integer, ['x', 'y'], by simp, by simp, by simp [alphabet]⟩
    let a : Poly R := ⟨[⟨(1 : Int), [1, 0]⟩, ⟨(1 : Int), [0, 1]⟩]⟩
    let b : Poly R := ⟨[⟨(1 : Int), [1, 0]⟩]⟩
    let c : Poly R := ⟨[⟨(-1 : Int), [1, 0]⟩]⟩
    R.domain ≠ .real ∧ a.WellFormed ∧ b.WellFormed ∧ c.WellFormed ∧
      (a.mul (b.add c)).terms = [⟨(0 : Int), [0, 0]⟩] ∧
      ((a.mul b).add (a.mul c)).terms = [⟨(0 : Int), [2, 0]⟩, ⟨(0 : Int), [1, 1]⟩] ∧
      (a.mul (b.add c)).Alike ((a.mul b).add (a.mul c)) := by
  intro R a b c
  have hexact : R.domain ≠ .real := by decide
  have ha : a.WellFormed := ⟨by unfold Ordered; decide, by decide⟩
  have hb : b.WellFormed := ⟨by unfold Ordered; decide, by decide⟩
  have hc : c.WellFormed := ⟨by unfold Ordered; decide, by decide⟩
  obtain ⟨-, -, -, -, -, -, hdistrib, -⟩ := ring_laws hexact ha hb hc 2 3
  exact ⟨hexact, ha, hb, hc, rfl, rfl, hdistrib⟩

end Poly
end Multipoly
