import Multipoly.Poly

/-!
# Formal derivatives

The derivative of a polynomial merges the derivatives of its non-zero terms. A power that becomes a
coefficient may be out of the range of the doubles; over an exact domain every power is a coefficient,
so the derivative by a variable of the ring is never refused.

Results:
* `Poly.exists_derivative`: over an exact domain the derivative by a variable of the ring exists;
* `Poly.derivative_eq_of_nonzero_eq`: it depends on the non-zero terms alone.
-/
namespace Multipoly

/-- Why a derivative does not exist. -/
inductive DerivativeError where
  | unknownVariable (e : UnknownVariable)
  /-- A power is no coefficient. -/
  | power (e : RangeError)

namespace Poly
variable {R : PolyRing}

/-- Merges the derivative of one term, which is nothing when the variable does not occur. -/
def addDerivative (slot : Nat) (p : Poly R) (m : Monomial R) : Except RangeError (Poly R) :=
  match m.power slot with
  | 0 => .ok p
  | e + 1 => do
    let k ← Coefficient.ofInt (e + 1 : Nat)
    return p.addTerm ⟨m.coeff * k, m.powers.set slot e⟩

/-- The derivative by the variable of a given name, which must be one of the ring. -/
def derivative (p : Poly R) (name : String) : Except DerivativeError (Poly R) := do
  let slot ← (R.slot name).mapError .unknownVariable
  (p.nonzero.foldlM (addDerivative slot) empty).mapError .power

theorem derivative_of_slot {p : Poly R} {name : String} {slot : Nat} (h : R.slot name = .ok slot) :
    p.derivative name = (p.nonzero.foldlM (addDerivative slot) empty).mapError .power := by
  rw [derivative, h]
  rfl

/-- Zero terms do not matter. -/
theorem derivative_eq_of_nonzero_eq {p q : Poly R} (h : p.nonzero = q.nonzero) (name : String) :
    p.derivative name = q.derivative name := by
  rw [derivative, derivative, h]

/-! ## Existence over exact domains -/

section
variable (h : R.domain ≠ .real)
include h

theorem exists_addDerivative (slot : Nat) (p : Poly R) (m : Monomial R) :
    ∃ q, addDerivative slot p m = .ok q := by
  unfold addDerivative
  split
  · exact ⟨p, rfl⟩
  · rename_i e _
    obtain ⟨k, hk⟩ := Domain.exists_ofInt h (e + 1 : Nat)
    rw [hk]
    exact ⟨_, rfl⟩

theorem exists_foldlM_addDerivative (slot : Nat) (ms : List (Monomial R)) (p : Poly R) :
    ∃ q, ms.foldlM (addDerivative slot) p = .ok q := by
  induction ms generalizing p with
  | nil => exact ⟨p, rfl⟩
  | cons m ms ih =>
    obtain ⟨q, hq⟩ := exists_addDerivative h slot p m
    rw [List.foldlM_cons, hq]
    exact ih q

theorem exists_derivative_of_slot (p : Poly R) {name : String} {slot : Nat}
    (hslot : R.slot name = .ok slot) : ∃ q, p.derivative name = .ok q := by
  obtain ⟨q, hq⟩ := exists_foldlM_addDerivative h slot p.nonzero empty
  rw [derivative_of_slot hslot, hq]
  exact ⟨q, rfl⟩

theorem exists_derivative (p : Poly R) {v : Char} (hv : v ∈ R.vars) :
    ∃ q, p.derivative (String.ofList [v]) = .ok q := by
  obtain ⟨i, hi⟩ := PolyRing.exists_slot_of_mem hv
  exact exists_derivative_of_slot h p hi

end

end Poly
end Multipoly
