import Mathlib.Algebra.MvPolynomial.PDeriv
import Multipoly.Proofs.Denotation
import Multipoly.Proofs.SameRing

/-!
# The derivative as a derivation

The derivative drops terms, lowers power vectors and merges what is left, so the two sides of a rule
of differentiation are different term lists. What a derivative denotes is the partial derivative of
what its polynomial denotes, and the rules are those of the polynomial ring. Equality of polynomials
is equality there, so zero terms on either side do not matter.

Results:
* `Poly.denote_derivative`: a derivative denotes the partial derivative;
* `Poly.hasDerivative_add`, `Poly.hasDerivative_mul`, `Poly.hasDerivative_pow`, ...: the rules;
* `Poly.derivative_rules`: all of them, with what the operators of the program compute.
-/
namespace Multipoly
open MvPolynomial

variable {R : PolyRing}

/-! ## Terms -/

/-- The power at one slot lowered by one. -/
theorem Powers.exponent_set {n : Nat} {u : Powers} (hu : u.length = n) {i : Fin n} {e : Nat}
    (hi : u.getD i 0 = e + 1) : exponent n (u.set i e) = exponent n u - Finsupp.single i 1 := by
  ext j
  rw [exponent_apply, Finsupp.tsub_apply, exponent_apply]
  by_cases hij : i = j
  · subst hij
    have hlower : e = u.getD i 0 - 1 := by omega
    simpa [hu] using hlower
  · have hne : (i : Nat) ≠ j := fun heq => hij (Fin.ext heq)
    simp [hne, hij]

/-- Merging the derivative of a term adds the partial derivative of what the term denotes. -/
theorem Poly.denote_addDerivative (h : R.domain ≠ .real) {i : Fin R.arity} {p q : Poly R}
    {m : Monomial R} (hm : m.Fits) (hq : addDerivative i p m = .ok q) :
    q.denote = p.denote + pderiv i m.denote := by
  have hpower : Powers.exponent R.arity m.powers i = m.power i := rfl
  rw [Monomial.denote, pderiv_monomial, hpower]
  unfold addDerivative at hq
  split at hq
  · rename_i hzero
    cases hq
    rw [hzero, Nat.cast_zero, mul_zero, monomial_zero, add_zero]
  · rename_i e hsucc
    obtain ⟨k, hk⟩ := Domain.exists_ofInt h (e + 1 : Nat)
    rw [hk] at hq
    cases hq
    rw [denote_addTerm h, Monomial.denote, Powers.exponent_set hm hsucc, Domain.toRat_mul h,
      Domain.toRat_ofInt h hk, hsucc, Int.cast_natCast]

namespace Poly

/-! ## Polynomials -/

/-- What is denoted after steps that each add something. -/
theorem denote_foldlM {α ε : Type} {f : Poly R → α → Except ε (Poly R)}
    {g : α → MvPolynomial (Fin R.arity) ℚ} {xs : List α} {p q : Poly R}
    (hf : ∀ p, ∀ x ∈ xs, ∀ p', f p x = .ok p' → p'.denote = p.denote + g x)
    (hq : xs.foldlM f p = .ok q) : q.denote = p.denote + (xs.map g).sum := by
  induction xs generalizing p with
  | nil => cases hq; exact (add_zero _).symm
  | cons x xs ih =>
    rw [List.foldlM_cons] at hq
    cases hx : f p x with
    | error e => rw [hx] at hq; cases hq
    | ok p' =>
      rw [hx] at hq
      rw [ih (fun p y hy => hf p y (List.mem_cons_of_mem _ hy)) hq,
        hf p x List.mem_cons_self p' hx, List.map_cons, List.sum_cons, add_assoc]

theorem denote_derivative (h : R.domain ≠ .real) {p q : Poly R} (hp : p.WellFormed)
    {name : String} {i : Fin R.arity} (hi : R.slot name = .ok (i : Nat))
    (hq : p.derivative name = .ok q) : q.denote = pderiv i p.denote := by
  rw [derivative_of_slot hi] at hq
  cases hfold : p.nonzero.foldlM (addDerivative i) empty with
  | error e => rw [hfold] at hq; cases hq
  | ok r =>
    rw [hfold] at hq
    cases hq
    have hstep : ∀ s : Poly R, ∀ m ∈ p.nonzero, ∀ s', addDerivative i s m = .ok s' →
        s'.denote = s.denote + pderiv i m.denote := fun _ m hm _ hs' =>
      denote_addDerivative h (hp.prune.fits m hm) hs'
    rw [denote_foldlM hstep hfold, denote_empty, zero_add, ← denote_nonzero h p, denote,
      map_list_sum, List.map_map]
    rfl

/-! ## Rules -/

/-- The derivative by the variable `v` exists and is equal to `d`. -/
def HasDerivative (p : Poly R) (v : Char) (d : Poly R) : Prop :=
  ∃ q, p.derivative (String.ofList [v]) = .ok q ∧ q.same d = true

/-- The order of two partial derivatives does not matter. -/
theorem pderiv_comm {n : Nat} (i j : Fin n) (f : MvPolynomial (Fin n) ℚ) :
    pderiv i (pderiv j f) = pderiv j (pderiv i f) := by
  by_cases hij : i = j
  · rw [hij]
  · ext u
    rw [coeff_pderiv, coeff_pderiv, coeff_pderiv, coeff_pderiv, add_right_comm]
    simp [hij, Ne.symm hij, mul_right_comm]

section
variable (h : R.domain ≠ .real) {a b a' b' : Poly R} {v : Char} {i : Fin R.arity}
  (hi : R.slot (String.ofList [v]) = .ok (i : Nat))
include h hi

theorem hasDerivative_of_denote {p d : Poly R} (hp : p.WellFormed) (hd : d.WellFormed)
    (hdenote : d.denote = pderiv i p.denote) : p.HasDerivative v d := by
  obtain ⟨q, hq⟩ := exists_derivative_of_slot h p hi
  refine ⟨q, hq, (same_iff_denote_eq h (hp.derivative hq) hd).2 ?_⟩
  rw [denote_derivative h hp hi hq, hdenote]

variable (ha : a.WellFormed) (ha' : a.derivative (String.ofList [v]) = .ok a')
include ha ha'

theorem hasDerivative_scale (k : R.Carrier) : (a.scale k).HasDerivative v (a'.scale k) := by
  refine hasDerivative_of_denote h hi (ha.scale k) ((ha.derivative ha').scale k) ?_
  rw [denote_scale h, denote_scale h, denote_derivative h ha hi ha', mul_comm, mul_comm a.denote,
    pderiv_C_mul]

theorem hasDerivative_pow (n : Nat) {c : R.Carrier} (hc : R.domain.toRat c = (n + 1 : Nat)) :
    (a.pow (n + 1)).HasDerivative v (((a.pow n).mul a').scale c) := by
  have ha'' := ha.derivative ha'
  refine hasDerivative_of_denote h hi (ha.pow _) (((ha.pow n).mul ha'').scale c) ?_
  rw [denote_scale h, denote_mul h (ha.pow n) ha'', denote_pow h ha, denote_pow h ha,
    denote_derivative h ha hi ha', pderiv_pow, hc, map_natCast, Nat.add_sub_cancel]
  ring

theorem hasDerivative_derivative {w : Char} {j : Fin R.arity} {a'' d : Poly R}
    (hj : R.slot (String.ofList [w]) = .ok (j : Nat))
    (ha'' : a.derivative (String.ofList [w]) = .ok a'')
    (hd : a'.derivative (String.ofList [w]) = .ok d) : a''.HasDerivative v d := by
  have hw := ha.derivative ha''
  refine hasDerivative_of_denote h hi hw ((ha.derivative ha').derivative hd) ?_
  rw [denote_derivative h (ha.derivative ha') hj hd, denote_derivative h ha hi ha',
    denote_derivative h ha hj ha'', pderiv_comm]

variable (hb : b.WellFormed) (hb' : b.derivative (String.ofList [v]) = .ok b')
include hb hb'

theorem hasDerivative_add : (a.add b).HasDerivative v (a'.add b') := by
  refine hasDerivative_of_denote h hi (ha.add hb) ((ha.derivative ha').add (hb.derivative hb')) ?_
  rw [denote_add h, denote_add h, map_add, denote_derivative h ha hi ha',
    denote_derivative h hb hi hb']

theorem hasDerivative_mul : (a.mul b).HasDerivative v ((a'.mul b).add (a.mul b')) := by
  have hda := ha.derivative ha'
  have hdb := hb.derivative hb'
  refine hasDerivative_of_denote h hi (ha.mul hb) ((hda.mul hb).add (ha.mul hdb)) ?_
  rw [denote_add h, denote_mul h hda hb, denote_mul h ha hdb, denote_mul h ha hb,
    denote_derivative h ha hi ha', denote_derivative h hb hi hb', pderiv_mul]

end

/-- Over an exact domain the derivatives by the variables of the ring exist, and they are additive
and homogeneous, obey the rules for products and powers, and commute. The operators are never
refused on operands of one ring. `Poly.Reachable.wellFormed` provides the hypotheses on the terms. -/
theorem derivative_rules (h : R.domain ≠ .real) {a b : Poly R} (ha : a.WellFormed)
    (hb : b.WellFormed) {v w : Char} (hv : v ∈ R.vars) (hw : w ∈ R.vars) (k : R.Carrier)
    (n : Nat) :
    (∀ p q : Poly R, p.plus (.poly R q) = .ok (p.add q) ∧ p.times (.poly R q) = .ok (p.mul q)) ∧
    (∀ (p : Poly R) (l : R.Carrier), p.times (.scalar l) = .ok (p.scale l)) ∧
    (∀ (p : Poly R) (e : Nat), p.powInt e = .ok (p.pow e)) ∧
    ∃ a' b' : Poly R,
      a.derivative (String.ofList [v]) = .ok a' ∧ b.derivative (String.ofList [v]) = .ok b' ∧
      (a.add b).HasDerivative v (a'.add b') ∧
      (a.scale k).HasDerivative v (a'.scale k) ∧
      (a.mul b).HasDerivative v ((a'.mul b).add (a.mul b')) ∧
      (∃ c, Coefficient.ofInt (n + 1 : Nat) = .ok c ∧
        (a.pow (n + 1)).HasDerivative v (((a.pow n).mul a').scale c)) ∧
      ∃ a'' d : Poly R,
        a.derivative (String.ofList [w]) = .ok a'' ∧ a'.derivative (String.ofList [w]) = .ok d ∧
        a''.HasDerivative v d := by
  obtain ⟨i, hi⟩ := PolyRing.exists_slot_of_mem hv
  obtain ⟨j, hj⟩ := PolyRing.exists_slot_of_mem hw
  obtain ⟨a', ha'⟩ := exists_derivative h a hv
  obtain ⟨b', hb'⟩ := exists_derivative h b hv
  obtain ⟨a'', ha''⟩ := exists_derivative h a hw
  obtain ⟨d, hd⟩ := exists_derivative h a' hw
  obtain ⟨c, hc⟩ := Domain.exists_ofInt h (n + 1 : Nat)
  refine ⟨fun p q => ⟨plus_poly p q, times_poly p q⟩, fun _ _ => rfl, fun _ _ => rfl, a', b',
    ha', hb', hasDerivative_add h hi ha ha' hb hb', hasDerivative_scale h hi ha ha' k,
    hasDerivative_mul h hi ha ha' hb hb', ⟨c, hc, hasDerivative_pow h hi ha ha' n ?_⟩, a'', d,
    ha'', hd, hasDerivative_derivative h hi ha ha' hj ha'' hd⟩
  rw [Domain.toRat_ofInt h hc, Int.cast_natCast]

/-- In the product of `x + y` and `x - y` the terms `xy` cancel and stay as a zero term, which the
derivative drops and the products of the rule make anew. -/
theorem derivative_rules_cancelling :
    let R : PolyRing := ⟨.integer, ['x', 'y'], by simp, by simp, by simp [alphabet]⟩
    let a : Poly R := ⟨[⟨(1 : Int), [1, 0]⟩, ⟨(1 : Int), [0, 1]⟩]⟩
    let b : Poly R := ⟨[⟨(1 : Int), [1, 0]⟩, ⟨(-1 : Int), [0, 1]⟩]⟩
    R.domain ≠ .real ∧ a.WellFormed ∧ b.WellFormed ∧ 'x' ∈ R.vars ∧ 'y' ∈ R.vars ∧
      (a.mul b).terms = [⟨(1 : Int), [2, 0]⟩, ⟨(0 : Int), [1, 1]⟩, ⟨(-1 : Int), [0, 2]⟩] ∧
      ∃ a' b' : Poly R, a.derivative "x" = .ok a' ∧ b.derivative "x" = .ok b' ∧
        ((a'.mul b).add (a.mul b')).terms = [⟨(2 : Int), [1, 0]⟩, ⟨(0 : Int), [0, 1]⟩] ∧
        (a.mul b).HasDerivative 'x' ((a'.mul b).add (a.mul b')) := by
  intro R a b
  have hexact : R.domain ≠ .real := by decide
  have ha : a.WellFormed := ⟨by unfold Ordered; decide, by decide⟩
  have hb : b.WellFormed := ⟨by unfold Ordered; decide, by decide⟩
  have hx : 'x' ∈ R.vars := by decide
  have hy : 'y' ∈ R.vars := by decide
  obtain ⟨-, -, -, a', b', ha', hb', -, -, hmul, -⟩ :=
    derivative_rules hexact ha hb hx hy (3 : Int) 4
  obtain rfl : a' = ⟨[⟨(1 : Int), [0, 0]⟩]⟩ := Except.ok.inj (ha'.symm.trans (by cbv))
  obtain rfl : b' = ⟨[⟨(1 : Int), [0, 0]⟩]⟩ := Except.ok.inj (hb'.symm.trans (by cbv))
  exact ⟨hexact, ha, hb, hx, hy, rfl, _, _, ha', hb', rfl, hmul⟩

end Poly
end Multipoly
