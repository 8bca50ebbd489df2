import Multipoly.Proofs.Denotation
import Multipoly.Proofs.SameRing

/-!
# Zero terms are unobservable

Equal polynomials may store different zero terms. Over the exact domains no operation tells them
apart: the results of arithmetic are equal again, because they denote the same, and everything else
is computed from the non-zero terms.

Results:
* `Poly.same_of_denote`, `Poly.same_of_denote₂`: operations of the polynomial ring respect equality;
* `Poly.same_add`, `Poly.same_mul`, ...: so does all arithmetic;
* `Poly.prune_same`: dropping the zero terms keeps the value;
* `Poly.zero_terms_unobservable`: all operations and observations at once.
-/
namespace Multipoly

variable {R : PolyRing}

/-- Both computations yield polynomials, and these are equal. -/
def EqualResults {ε : Type} (o o' : Except ε (Poly R)) : Prop :=
  ∃ r r', o = .ok r ∧ o' = .ok r' ∧ r.same r' = true

namespace Poly
variable {p p' q q' : Poly R} (h : R.domain ≠ .real)
include h

/-! ## Scalars -/

/-- The side of a scalar does not matter. -/
theorem scaleLeft_eq_scale (p : Poly R) (k : R.Carrier) : p.scaleLeft k = p.scale k := by
  have hterm : ∀ m : Monomial R, m.scaleLeft k = m.scale k := by
    intro m
    have hcomm : k * m.coeff = m.coeff * k := by
      rw [← Domain.toRat_inj h, Domain.toRat_mul h, Domain.toRat_mul h, mul_comm]
    rw [Monomial.scaleLeft, Monomial.scale, hcomm]
  rw [scaleLeft, scale]
  exact congrArg Poly.mk (List.map_congr_left fun m _ => hterm m)

/-! ## Arithmetic respects equality -/

/-- An operation of the polynomial ring in one operand respects equality. -/
theorem same_of_denote {f : Poly R → Poly R}
    (g : MvPolynomial (Fin R.arity) ℚ → MvPolynomial (Fin R.arity) ℚ)
    (hf : ∀ r : Poly R, r.WellFormed → (f r).WellFormed ∧ (f r).denote = g r.denote)
    (hp : p.WellFormed) (hp' : p'.WellFormed) (hpp' : p.same p' = true) :
    (f p).same (f p') = true := by
  rw [same_iff_denote_eq h hp hp'] at hpp'
  rw [same_iff_denote_eq h (hf p hp).1 (hf p' hp').1, (hf p hp).2, (hf p' hp').2, hpp']

/-- An operation of the polynomial ring in two operands respects equality. -/
theorem same_of_denote₂ {f : Poly R → Poly R → Poly R}
    (g : MvPolynomial (Fin R.arity) ℚ → MvPolynomial (Fin R.arity) ℚ →
      MvPolynomial (Fin R.arity) ℚ)
    (hf : ∀ r s : Poly R, r.WellFormed → s.WellFormed →
      (f r s).WellFormed ∧ (f r s).denote = g r.denote s.denote)
    (hp : p.WellFormed) (hp' : p'.WellFormed) (hpp' : p.same p' = true)
    (hq : q.WellFormed) (hq' : q'.WellFormed) (hqq' : q.same q' = true) :
    (f p q).same (f p' q') = true := by
  rw [same_iff_denote_eq h hp hp'] at hpp'
  rw [same_iff_denote_eq h hq hq'] at hqq'
  rw [same_iff_denote_eq h (hf p q hp hq).1 (hf p' q' hp' hq').1, (hf p q hp hq).2,
    (hf p' q' hp' hq').2, hpp', hqq']

section
variable (hp : p.WellFormed) (hp' : p'.WellFormed) (hpp' : p.same p' = true)
include hp hp' hpp'

theorem same_neg : p.neg.same p'.neg = true :=
  same_of_denote h (fun f => -f) (fun r hr => ⟨hr.neg, denote_neg h r⟩) hp hp' hpp'

theorem same_scale (k : R.Carrier) : (p.scale k).same (p'.scale k) = true :=
  same_of_denote h (fun f => f * MvPolynomial.C (R.domain.toRat k))
    (fun r hr => ⟨hr.scale k, denote_scale h r k⟩) hp hp' hpp'

theorem same_pow (n : Nat) : (p.pow n).same (p'.pow n) = true :=
  same_of_denote h (fun f => f ^ n) (fun _ hr => ⟨hr.pow n, denote_pow h hr n⟩) hp hp' hpp'

variable (hq : q.WellFormed) (hq' : q'.WellFormed) (hqq' : q.same q' = true)
include hq hq' hqq'

theorem same_add : (p.add q).same (p'.add q') = true :=
  same_of_denote₂ h (fun f g => f + g) (fun r s hr hs => ⟨hr.add hs, denote_add h r s⟩)
    hp hp' hpp' hq hq' hqq'

theorem same_sub : (p.sub q).same (p'.sub q') = true :=
  same_of_denote₂ h (fun f g => f - g) (fun r s hr hs => ⟨hr.sub hs, denote_sub h r s⟩)
    hp hp' hpp' hq hq' hqq'

theorem same_mul : (p.mul q).same (p'.mul q') = true :=
  same_of_denote₂ h (fun f g => f * g) (fun _ _ hr hs => ⟨hr.mul hs, denote_mul h hr hs⟩)
    hp hp' hpp' hq hq' hqq'

end

/-! ## Pruning -/

theorem prune_same (p : Poly R) : p.prune.same p = true :=
  (same_iff_nonzero_eq h).2 (nonzero_nonzero p)

/-! ## All at once -/

/-- Equal polynomials over an exact domain cannot be told apart, whatever zero terms they store:
arithmetic, powers, derivatives and pruning have equal results, and the text, the degrees and the
values, or the refusals, are the same. `Poly.Reachable.wellFormed` provides the hypotheses on the
terms. -/
theorem zero_terms_unobservable (hp : p.WellFormed) (hp' : p'.WellFormed) (hq : q.WellFormed)
    (hq' : q'.WellFormed) (hpp' : p.same p' = true) (hqq' : q.same q' = true) :
    EqualResults (p.plus (.poly R q)) (p'.plus (.poly R q')) ∧
    EqualResults (p.minus (.poly R q)) (p'.minus (.poly R q')) ∧
    EqualResults (p.times (.poly R q)) (p'.times (.poly R q')) ∧
    p.neg.same p'.neg = true ∧
    (∀ k, (p.scale k).same (p'.scale k) = true ∧
      EqualResults (p.times (.scalar k)) (p'.times (.scalar k)) ∧
      EqualResults (timesFrom (.scalar k) p) (timesFrom (.scalar k) p')) ∧
    (∀ n : Nat, EqualResults (p.powInt n) (p'.powInt n)) ∧
    (∀ v ∈ R.vars,
      EqualResults (p.derivative (String.ofList [v])) (p'.derivative (String.ofList [v]))) ∧
    (p.prune.same p' = true ∧ p.prune.same p'.prune = true ∧ p.prune.prune = p.prune) ∧
    (p.text = p'.text ∧ p.write = p'.write) ∧
    p.isZero = p'.isZero ∧ p.isConstant = p'.isConstant ∧ p.degree = p'.degree ∧
    (∀ name, p.degreeIn name = p'.degreeIn name) ∧
    ∀ env, p.eval env = p'.eval env := by
  have hnonzero := (same_iff_nonzero_eq h).1 hpp'
  have htext := text_eq_of_nonzero_eq hnonzero
  have hprune : p.prune = p'.prune := congrArg Poly.mk hnonzero
  have hscale := same_scale h hp hp' hpp'
  refine ⟨?plus, ?minus, ?times, same_neg h hp hp' hpp',
    fun k => ⟨hscale k, ⟨_, _, rfl, rfl, hscale k⟩, ?timesFrom⟩,
    fun n => ⟨_, _, rfl, rfl, same_pow h hp hp' hpp' n⟩, fun v hv => ?derivative,
    ⟨?prune, ?prunes, congrArg Poly.mk (nonzero_nonzero p)⟩,
    ⟨htext, congrArg Numeral.written htext⟩,
    isZero_eq_of_nonzero_eq hnonzero, isConstant_eq_of_nonzero_eq hnonzero,
    degree_eq_of_nonzero_eq hnonzero, degreeIn_eq_of_nonzero_eq hnonzero,
    eval_eq_of_nonzero_eq hnonzero⟩
  case plus => exact ⟨_, _, plus_poly p q, plus_poly p' q', same_add h hp hp' hpp' hq hq' hqq'⟩
  case minus => exact ⟨_, _, minus_poly p q, minus_poly p' q', same_sub h hp hp' hpp' hq hq' hqq'⟩
  case times => exact ⟨_, _, times_poly p q, times_poly p' q', same_mul h hp hp' hpp' hq hq' hqq'⟩
  case timesFrom =>
    refine ⟨p.scaleLeft k, p'.scaleLeft k, rfl, rfl, ?_⟩
    rw [scaleLeft_eq_scale h, scaleLeft_eq_scale h]
    exact hscale k
  case derivative =>
    obtain ⟨r, hr⟩ := exists_derivative h p hv
    exact ⟨r, r, hr, derivative_eq_of_nonzero_eq hnonzero _ ▸ hr, same_self h r⟩
  case prune =>
    rw [hprune]
    exact prune_same h p'
  case prunes =>
    rw [hprune]
    exact same_self h _

omit h in
/-- The product of `x + 0y` and `0x + 1` stores a zero term, the product of `x` and `1` none. -/
theorem zero_terms_unobservable_product :
    let R : PolyRing := ⟨.rational, ['x', 'y'], by simp, by simp, by simp [alphabet]⟩
    let p : Poly R := ⟨[⟨(1 : Rat), [1, 0]⟩, ⟨(0 : Rat), [0, 1]⟩]⟩
    let p' : Poly R := ⟨[⟨(1 : Rat), [1, 0]⟩]⟩
    let q : Poly R := ⟨[⟨(0 : Rat), [1, 0]⟩, ⟨(1 : Rat), [0, 0]⟩]⟩
    let q' : Poly R := ⟨[⟨(1 : Rat), [0, 0]⟩]⟩
    R.domain ≠ .real ∧ p.WellFormed ∧ p'.WellFormed ∧ q.WellFormed ∧ q'.WellFormed ∧
      p.same p' = true ∧ q.same q' = true ∧
      (p.mul q).terms.length = 2 ∧ (p'.mul q').terms.length = 1 ∧
      EqualResults (p.times (.poly R q)) (p'.times (.poly R q')) ∧ p.text = p'.text := by
  intro R p p' q q'
  have hexact : R.domain ≠ .real := by decide
  have hp : p.WellFormed := ⟨by unfold Ordered; decide, by decide⟩
  have hp' : p'.WellFormed := ⟨by unfold Ordered; decide, by decide⟩
  have hq : q.WellFormed := ⟨by unfold Ordered; decide, by decide⟩
  have hq' : q'.WellFormed := ⟨by unfold Ordered; decide, by decide⟩
  obtain ⟨-, -, htimes, -, -, -, -, -, htext, -⟩ :=
    zero_terms_unobservable hexact hp hp' hq hq' (by cbv) (by cbv)
  exact ⟨hexact, hp, hp', hq, hq', by cbv, by cbv, by cbv, by cbv, htimes, htext.1⟩

end Poly
end Multipoly
