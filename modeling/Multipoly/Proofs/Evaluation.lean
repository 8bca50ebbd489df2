import Mathlib.Algebra.BigOperators.Fin
import Multipoly.Proofs.Meaning

/-!
# The value of a polynomial

Over an exact domain the value that is computed is the value of what the polynomial denotes, at the
rational numbers that the environment gives. A variable is looked up where it occurs in a non-zero
term and nowhere else, so the values of the other variables need not exist.

Results:
* `Monomial.eval_eq_foldlM`: a term is evaluated slot by slot;
* `Monomial.eval_of_lookup`, `Poly.eval_of_lookup`: the value, when the variables that occur have
  values;
* `Poly.eval_of_assigns`: the value, when all variables of the ring have values.
-/
namespace Multipoly

variable {R : PolyRing}

/-- The variable at a slot of the ring. -/
def PolyRing.variableAt (R : PolyRing) (i : Fin R.arity) : Char := R.vars.get i

/-- The environment gives the variable at each slot `i` the value `x i`. -/
def Env.Assigns (env : Env R.Carrier) (x : Fin R.arity → R.Carrier) : Prop :=
  ∀ i : Fin R.arity, env.lookup (R.variableAt i) i = .ok (x i)

theorem Domain.toRat_positivePower {d : Domain} (h : d ≠ .real) (x : d.Carrier) {e : Nat}
    (he : e ≠ 0) : toRat d (positivePower x e) = toRat d x ^ e := by
  obtain ⟨n, rfl⟩ := Nat.exists_eq_succ_of_ne_zero he
  show toRat d (Nat.repeat (· * x) n x) = toRat d x ^ (n + 1)
  induction n with
  | zero => exact (pow_one _).symm
  | succ n ih => rw [Nat.repeat, toRat_mul h, ih n.succ_ne_zero, ← pow_succ]

/-! ## Terms -/

namespace Monomial
variable {m : Monomial R} {env : Env R.Carrier}

/-- Multiplies by the power of the variable at one slot, if it occurs. -/
def multiplyAt (m : Monomial R) (env : Env R.Carrier) (r : R.Carrier) (i : Fin R.arity) :
    Except EvalError R.Carrier :=
  if m.power i = 0 then .ok r
  else return r * positivePower (← env.lookup (R.variableAt i) i) (m.power i)

theorem zipIdx_powers (hm : m.Fits) :
    (R.vars.zip m.powers).zipIdx =
      (List.finRange R.arity).map fun i => ((R.variableAt i, m.power i), (i : Nat)) := by
  have hpowers : m.powers.length = R.arity := hm
  have hlength : (R.vars.zip m.powers).length = R.arity := by
    rw [List.length_zip, hpowers]
    exact Nat.min_self _
  refine List.ext_getElem (by simp [hlength]) fun i hi hi' => ?_
  rw [List.length_zipIdx, hlength] at hi
  have hpower : m.power i = m.powers[i] := by simp [power, hpowers, hi]
  rw [List.getElem_zipIdx, List.getElem_zip, List.getElem_map, List.getElem_finRange, Nat.zero_add,
    ← hpower]
  rfl

theorem eval_eq_foldlM (hm : m.Fits) :
    m.eval env = (List.finRange R.arity).foldlM (m.multiplyAt env) m.coeff := by
  rw [eval, zipIdx_powers hm, List.foldlM_map]
  rfl

variable (h : R.domain ≠ .real) {x : Fin R.arity → R.Carrier}
include h

theorem foldlM_multiplyAt (is : List (Fin R.arity))
    (hx : ∀ i ∈ is, m.power i ≠ 0 → env.lookup (R.variableAt i) i = .ok (x i)) (r : R.Carrier) :
    ∃ s, is.foldlM (m.multiplyAt env) r = .ok s ∧
      R.domain.toRat s =
        R.domain.toRat r * (is.map fun i => R.domain.toRat (x i) ^ m.power i).prod := by
  induction is generalizing r with
  | nil => exact ⟨r, rfl, (mul_one _).symm⟩
  | cons i is ih =>
    have hrest := fun j hj => hx j (List.mem_cons_of_mem i hj)
    rw [List.foldlM_cons, multiplyAt, List.map_cons, List.prod_cons]
    by_cases hi : m.power i = 0
    · rw [if_pos hi, hi, pow_zero, one_mul]
      exact ih hrest r
    · rw [if_neg hi, hx i List.mem_cons_self hi]
      obtain ⟨s, hs, hvalue⟩ := ih hrest (r * positivePower (x i) (m.power i))
      refine ⟨s, hs, ?_⟩
      rw [hvalue, Domain.toRat_mul h, Domain.toRat_positivePower h _ hi, mul_assoc]

theorem eval_of_lookup (hm : m.Fits)
    (hx : ∀ i : Fin R.arity, m.power i ≠ 0 → env.lookup (R.variableAt i) i = .ok (x i)) :
    ∃ s, m.eval env = .ok s ∧
      R.domain.toRat s = MvPolynomial.eval (fun i => R.domain.toRat (x i)) m.denote := by
  obtain ⟨s, hs, hvalue⟩ := foldlM_multiplyAt h (List.finRange R.arity) (fun i _ => hx i) m.coeff
  refine ⟨s, (eval_eq_foldlM hm).trans hs, ?_⟩
  rw [hvalue, denote_eq_prod, map_mul, map_prod, MvPolynomial.eval_C, Fin.prod_univ_def]
  simp [power]

end Monomial

/-! ## Polynomials -/

namespace Poly
variable (h : R.domain ≠ .real) {env : Env R.Carrier} {x : Fin R.arity → R.Carrier} {p : Poly R}
include h

/-- The values of terms, added one after the other. -/
theorem foldlM_eval {ms : List (Monomial R)} (hms : ∀ m ∈ ms, m.Fits)
    (hx : ∀ m ∈ ms, ∀ i : Fin R.arity, m.power i ≠ 0 →
      env.lookup (R.variableAt i) i = .ok (x i)) (total : R.Carrier) :
    ∃ s, ms.foldlM (fun total m => return total + (← m.eval env)) total = .ok s ∧
      R.domain.toRat s = R.domain.toRat total +
        MvPolynomial.eval (fun i => R.domain.toRat (x i)) (denote ⟨ms⟩) := by
  induction ms generalizing total with
  | nil => exact ⟨total, rfl, by rw [denote, List.map_nil, List.sum_nil, map_zero, add_zero]⟩
  | cons m ms ih =>
    obtain ⟨y, hy, hvalue⟩ := Monomial.eval_of_lookup h (hms m List.mem_cons_self)
      (hx m List.mem_cons_self)
    obtain ⟨s, hs, hrest⟩ := ih (fun n hn => hms n (List.mem_cons_of_mem _ hn))
      (fun n hn => hx n (List.mem_cons_of_mem _ hn)) (total + y)
    refine ⟨s, ?_, ?_⟩
    · rw [List.foldlM_cons, hy]
      exact hs
    · rw [hrest, Domain.toRat_add h, hvalue, denote_cons, map_add, add_assoc]

theorem eval_of_lookup (hp : p.WellFormed)
    (hx : ∀ m ∈ p.nonzero, ∀ i : Fin R.arity, m.power i ≠ 0 →
      env.lookup (R.variableAt i) i = .ok (x i)) :
    ∃ s, p.eval env = .ok s ∧
      R.domain.toRat s = MvPolynomial.eval (fun i => R.domain.toRat (x i)) p.denote := by
  obtain ⟨s, hs, hvalue⟩ := foldlM_eval h hp.prune.fits hx 0
  refine ⟨s, hs, ?_⟩
  rw [hvalue, Domain.toRat_zero h, zero_add]
  exact congrArg _ (denote_nonzero h p)

theorem eval_of_assigns (hp : p.WellFormed) (henv : env.Assigns x) :
    ∃ s, p.eval env = .ok s ∧
      R.domain.toRat s = MvPolynomial.eval (fun i => R.domain.toRat (x i)) p.denote :=
  eval_of_lookup h hp fun _ _ i _ => henv i

end Poly
end Multipoly
