import Mathlib.Algebra.CharZero.Infinite
import Mathlib.Algebra.MvPolynomial.Funext
import Multipoly.Proofs.Evaluation
import Multipoly.Proofs.Rendering

/-!
# Polynomial identities

Over an exact domain two polynomials are equal exactly when they have equal values at all points of
the domain. One direction is that equal polynomials denote the same. For the other, the coefficients
of a domain are infinitely many rational numbers, and what a polynomial denotes is determined by its
values on a box with infinite sides.

Results:
* `Poly.denote_eq_of_eval_eq`: the values at all points determine what is denoted;
* `Poly.isZero_iff_denote_eq_zero`, `Poly.text_eq_nil_iff`: the polynomials that are zero;
* `Poly.same_iff_eval_eq`: equality is equality of values, and zero is zero everywhere.
-/
namespace Multipoly

variable {R : PolyRing}

/-! ## Points -/

theorem Domain.infinite_range_toRat {d : Domain} (h : d ≠ .real) :
    (Set.range (toRat d)).Infinite := by
  have hinj : Function.Injective (toRat d) := fun _ _ => (toRat_inj h).1
  have hinfinite : Infinite d.Carrier := by
    cases d with
    | integer => exact inferInstanceAs (Infinite ℤ)
    | rational => exact inferInstanceAs (Infinite ℚ)
    | real => exact absurd rfl h
  exact Set.infinite_range_of_injective hinj

/-- A list with one value for each variable. -/
theorem Env.assigns_bySlot (x : Fin R.arity → R.Carrier) : (bySlot (List.ofFn x)).Assigns x := by
  intro i
  have hvalue : (List.ofFn x)[(i : Nat)]? = some (x i) := by simp
  unfold lookup
  dsimp only
  rw [hvalue]

namespace Poly
variable (h : R.domain ≠ .real) {p q : Poly R}
include h

theorem denote_eq_of_eval_eq (hp : p.WellFormed) (hq : q.WellFormed)
    (heval : ∀ (env : Env R.Carrier) x, env.Assigns x → p.eval env = q.eval env) :
    p.denote = q.denote := by
  refine MvPolynomial.funext_set (fun _ => Set.range R.domain.toRat)
    (fun _ => Domain.infinite_range_toRat h) fun y hy => ?_
  -- The coordinates of the point are coefficients of the domain.
  choose x hx using fun i => hy i (Set.mem_univ i)
  obtain rfl : (fun i => R.domain.toRat (x i)) = y := funext hx
  have henv := Env.assigns_bySlot x
  obtain ⟨s, hs, hvalue⟩ := eval_of_assigns h hp henv
  obtain ⟨t, ht, hvalue'⟩ := eval_of_assigns h hq henv
  have heq : s = t := Except.ok.inj (hs.symm.trans ((heval _ x henv).trans ht))
  rw [← hvalue, ← hvalue', heq]

/-! ## Zero -/

theorem isZero_iff_denote_eq_zero (hp : p.WellFormed) : p.isZero = true ↔ p.denote = 0 := by
  rw [isZero_iff_nonzero_eq_nil]
  constructor
  · intro hnil
    rw [← denote_nonzero h, hnil]
    exact denote_empty
  · intro hzero
    exact nonzero_eq_of_denote_eq h hp .empty hzero

end Poly

/-- Some character is written for every coefficient. -/
theorem Domain.text_ne_nil {d : Domain} (h : d ≠ .real) {c : d.Carrier} (hc : 0 ≤ toRat d c) :
    Coefficient.text c ≠ [] := by
  by_cases ht : Rational.Terminates (toRat d c)
  · exact (text_of_terminates h hc ht).1.ne_nil
  · obtain ⟨ds, es, -, htext⟩ := text_of_not_terminates h hc ht
    rw [htext]
    exact List.append_ne_nil_of_right_ne_nil _ (List.cons_ne_nil _ _)

theorem Monomial.magnitudeText_ne_nil (h : R.domain ≠ .real) (m : Monomial R) :
    m.magnitudeText ≠ [] := by
  unfold magnitudeText
  dsimp only
  split
  · rename_i hhidden
    exact hhidden.1
  · exact List.append_ne_nil_of_left_ne_nil (Domain.text_ne_nil h (magnitude_nonneg h m)) _

theorem Monomial.text_ne_nil (h : R.domain ≠ .real) (m : Monomial R) : m.text ≠ [] := by
  unfold text
  split
  · exact List.cons_ne_nil _ _
  · exact m.magnitudeText_ne_nil h

namespace Poly
variable (h : R.domain ≠ .real) {p q : Poly R}
include h

theorem text_eq_nil_iff : p.text = [] ↔ p.isZero = true := by
  rw [isZero_iff_nonzero_eq_nil, text]
  cases p.nonzero with
  | nil => simp
  | cons m ms => simp [m.text_ne_nil h]

omit h in
theorem write_eq_nil_iff : p.write = .ok [] ↔ p.text = [] := by
  rw [write, Numeral.written_eq_ok_iff]
  constructor
  · exact And.right
  · intro htext
    rw [htext]
    exact ⟨Nat.zero_le _, rfl⟩

/-- A polynomial is zero exactly when its value is zero at all points. -/
theorem isZero_iff_eval_eq_zero (hp : p.WellFormed) :
    p.isZero = true ↔ ∀ (env : Env R.Carrier) x, env.Assigns x → p.eval env = .ok 0 := by
  rw [isZero_iff_denote_eq_zero h hp]
  constructor
  · intro hdenote env x henv
    obtain ⟨s, hs, hvalue⟩ := eval_of_assigns h hp henv
    rw [hdenote, map_zero, ← Domain.toRat_zero h, Domain.toRat_inj h] at hvalue
    rw [hs, hvalue]
  · exact denote_eq_of_eval_eq h hp .empty

/-! ## Equality -/

/-- Well-formed polynomials have a value wherever all variables have one. They are equal exactly
when all these values agree; and one that is zero everywhere is zero and has the empty text. -/
theorem same_iff_eval_eq (hp : p.WellFormed) (hq : q.WellFormed) :
    (∀ (env : Env R.Carrier) x, env.Assigns x → ∃ s, p.eval env = .ok s) ∧
    (p.same q = true ↔
      ∀ (env : Env R.Carrier) x, env.Assigns x → p.eval env = q.eval env) ∧
    (p.isZero = true ↔ ∀ (env : Env R.Carrier) x, env.Assigns x → p.eval env = .ok 0) ∧
    (p.write = .ok [] ↔ ∀ (env : Env R.Carrier) x, env.Assigns x → p.eval env = .ok 0) := by
  refine ⟨?_, ?_, ?_, ?_⟩
  · intro env x henv
    obtain ⟨s, hs, -⟩ := eval_of_assigns h hp henv
    exact ⟨s, hs⟩
  · constructor
    · intro hsame env _ _
      exact eval_eq_of_nonzero_eq ((same_iff_nonzero_eq h).1 hsame) env
    · intro heval
      exact (same_iff_denote_eq h hp hq).2 (denote_eq_of_eval_eq h hp hq heval)
  · exact isZero_iff_eval_eq_zero h hp
  · rw [← isZero_iff_eval_eq_zero h hp, ← text_eq_nil_iff h]
    exact write_eq_nil_iff

omit h in
/-- The squares and the numbers themselves agree at zero and at one, but not everywhere. -/
theorem same_iff_eval_eq_square :
    let R : PolyRing := ⟨.integer, ['x', 'y'], by simp, by simp, by simp [alphabet]⟩
    let p : Poly R := ⟨[⟨(1 : Int), [2, 0]⟩]⟩
    let q : Poly R := ⟨[⟨(1 : Int), [1, 0]⟩, ⟨(0 : Int), [0, 1]⟩]⟩
    R.domain ≠ .real ∧ p.WellFormed ∧ q.WellFormed ∧
      p.eval (.bySlot [(0 : Int), (0 : Int)]) = q.eval (.bySlot [(0 : Int), (0 : Int)]) ∧
      p.eval (.bySlot [(1 : Int), (0 : Int)]) = q.eval (.bySlot [(1 : Int), (0 : Int)]) ∧
      ¬ ∀ (env : Env R.Carrier) x, env.Assigns x → p.eval env = q.eval env := by
  intro R p q
  have hexact : R.domain ≠ .real := by decide
  have hp : p.WellFormed := ⟨by unfold Ordered; decide, by decide⟩
  have hq : q.WellFormed := ⟨by unfold Ordered; decide, by decide⟩
  have hdiffer : p.same q = false := rfl
  obtain ⟨-, hsame, -⟩ := same_iff_eval_eq hexact hp hq
  rw [← hsame, hdiffer]
  exact ⟨hexact, hp, hq, rfl, rfl, Bool.false_ne_true⟩

end Poly
end Multipoly
