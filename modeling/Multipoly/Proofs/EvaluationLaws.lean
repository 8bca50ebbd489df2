import Multipoly.Proofs.Identity
import Multipoly.Proofs.SameRing

/-!
# Evaluation as a homomorphism

Over an exact domain the value of a sum, a difference, a product, a multiple or a power is computed
from the values of its operands, however terms were merged, cancelled or collapsed on the way. An
operation is an operation on what its operands denote, evaluating at a point is a homomorphism
there, and the numbers of the domain are told apart by the rational numbers they are.

Results:
* `Env.assigns_named`, `Env.assigns_bySlot`: values by name and values by slot;
* `Poly.eval_eq_of_denote`: the value is determined by what is denoted;
* `Poly.eval_homomorphism`: the values of all operations.
-/
namespace Multipoly
open MvPolynomial

variable {R : PolyRing}

/-! ## Points -/

/-- One value for each variable, by name. -/
def Env.named (x : Fin R.arity → R.Carrier) : Env R.Carrier :=
  byName ((List.finRange R.arity).map fun i => (String.ofList [R.variableAt i], x i))

theorem PolyRing.variableAt_inj {i j : Fin R.arity} : R.variableAt i = R.variableAt j ↔ i = j :=
  List.Nodup.get_inj_iff R.nodup

theorem Env.assigns_named (x : Fin R.arity → R.Carrier) : (named x).Assigns x := by
  intro i
  have hlookup : ∀ is : List (Fin R.arity), i ∈ is →
      (is.map fun j => (String.ofList [R.variableAt j], x j)).lookup
        (String.ofList [R.variableAt i]) = some (x i) := by
    intro is hi
    induction is with
    | nil => cases hi
    | cons j is ih =>
      rw [List.map_cons, List.lookup_cons]
      by_cases hij : i = j
      · subst hij
        simp
      · have hname : (String.ofList [R.variableAt i] == String.ofList [R.variableAt j]) =
            false := by
          simpa [PolyRing.variableAt_inj] using hij
        rw [hname]
        exact ih ((List.mem_cons.1 hi).resolve_left hij)
  unfold named lookup
  dsimp only
  rw [hlookup _ (List.mem_finRange i)]

/-! ## Powers of values -/

/-- The product of `n` equal coefficients. -/
def Coefficient.power {K : Type} [Coefficient K] (x : K) : Nat → K
  | 0 => 1
  | n + 1 => power x n * x

theorem Domain.toRat_power {d : Domain} (h : d ≠ .real) (x : d.Carrier) (n : Nat) :
    toRat d (Coefficient.power x n) = toRat d x ^ n := by
  induction n with
  | zero => rw [pow_zero]; exact toRat_one h
  | succ n ih => rw [Coefficient.power, toRat_mul h, ih, pow_succ]

namespace Poly

/-! ## Variables -/

/-- The variable at a slot as a polynomial. -/
def atSlot (i : Fin R.arity) : Poly R := ⟨[⟨1, R.noPowers.set i 1⟩]⟩

theorem ofVariable_variableAt (i : Fin R.arity) :
    ofVariable (String.ofList [R.variableAt i]) = .ok (atSlot i : Poly R) := by
  have hslot : R.slot? (R.variableAt i) = some (i : Nat) := Phrase.slot_getElem i.isLt
  have hname : R.slot (String.ofList [R.variableAt i]) = .ok (i : Nat) := by
    unfold PolyRing.slot
    rw [String.toList_ofList]
    dsimp only
    rw [hslot]
    rfl
  unfold ofVariable Monomial.ofVariable
  rw [hname]
  rfl

theorem getD_noPowers_set (i j : Fin R.arity) :
    (R.noPowers.set i 1).getD j 0 = if j = i then 1 else 0 := by
  by_cases hij : j = i
  · simp [PolyRing.noPowers, hij]
  · have hne : (i : Nat) ≠ j := fun heq => hij (Fin.ext heq.symm)
    simp [PolyRing.noPowers, hne, hij]

theorem denote_atSlot (h : R.domain ≠ .real) (i : Fin R.arity) :
    (atSlot i : Poly R).denote = X i := by
  rw [atSlot, denote_singleton, Monomial.denote_eq_prod, Domain.toRat_one h, C_1, one_mul]
  dsimp only
  rw [Finset.prod_congr rfl fun j _ => by rw [getD_noPowers_set]]
  simp [pow_ite]

/-! ## Values -/

/-- An operation that gives a polynomial whose value is `s`. -/
def HasValue {ε : Type} (result : Except ε (Poly R)) (env : Env R.Carrier) (s : R.Carrier) : Prop :=
  ∃ p, result = .ok p ∧ p.eval env = .ok s

section
variable (h : R.domain ≠ .real) {p a b : Poly R} {env : Env R.Carrier}
  {x : Fin R.arity → R.Carrier} (henv : env.Assigns x)
include h henv

theorem eval_eq_of_denote (hp : p.WellFormed) {s : R.Carrier}
    (hs : R.domain.toRat s = MvPolynomial.eval (fun i => R.domain.toRat (x i)) p.denote) :
    p.eval env = .ok s := by
  obtain ⟨t, ht, hvalue⟩ := eval_of_assigns h hp henv
  rw [ht, (Domain.toRat_inj h).1 (hvalue.trans hs.symm)]

/-- What is denoted has the value that is computed. -/
theorem eval_denote (hp : p.WellFormed) {s : R.Carrier} (hs : p.eval env = .ok s) :
    MvPolynomial.eval (fun i => R.domain.toRat (x i)) p.denote = R.domain.toRat s := by
  obtain ⟨t, ht, hvalue⟩ := eval_of_assigns h hp henv
  rw [← hvalue, Except.ok.inj (ht.symm.trans hs)]

theorem eval_one : (one : Poly R).eval env = .ok 1 := by
  refine eval_eq_of_denote h henv .one ?_
  rw [denote_one h, map_one, Domain.toRat_one h]

theorem eval_empty : (empty : Poly R).eval env = .ok 0 := by
  refine eval_eq_of_denote h henv .empty ?_
  rw [denote_empty, map_zero, Domain.toRat_zero h]

theorem eval_atSlot (i : Fin R.arity) : (atSlot i : Poly R).eval env = .ok (x i) := by
  refine eval_eq_of_denote h henv (.ofVariable (ofVariable_variableAt i)) ?_
  rw [denote_atSlot h, eval_X]

variable {s t : R.Carrier} (ha : a.WellFormed) (hs : a.eval env = .ok s)
include ha hs

theorem eval_scale (k : R.Carrier) : (a.scale k).eval env = .ok (s * k) := by
  refine eval_eq_of_denote h henv (ha.scale k) ?_
  rw [denote_scale h, map_mul, eval_C, eval_denote h henv ha hs, Domain.toRat_mul h]

theorem eval_neg : a.neg.eval env = .ok (Coefficient.negate s) := by
  refine eval_eq_of_denote h henv ha.neg ?_
  rw [denote_neg h, map_neg, eval_denote h henv ha hs, Domain.toRat_negate h]

theorem eval_pow (n : Nat) : (a.pow n).eval env = .ok (Coefficient.power s n) := by
  refine eval_eq_of_denote h henv (ha.pow n) ?_
  rw [denote_pow h ha, map_pow, eval_denote h henv ha hs, Domain.toRat_power h]

variable (hb : b.WellFormed) (ht : b.eval env = .ok t)
include hb ht

theorem eval_add : (a.add b).eval env = .ok (s + t) := by
  refine eval_eq_of_denote h henv (ha.add hb) ?_
  rw [denote_add h, map_add, eval_denote h henv ha hs, eval_denote h henv hb ht, Domain.toRat_add h]

theorem eval_sub : (a.sub b).eval env = .ok (s - t) := by
  refine eval_eq_of_denote h henv (ha.sub hb) ?_
  rw [denote_sub h, map_sub, eval_denote h henv ha hs, eval_denote h henv hb ht, Domain.toRat_sub h]

theorem eval_mul : (a.mul b).eval env = .ok (s * t) := by
  refine eval_eq_of_denote h henv (ha.mul hb) ?_
  rw [denote_mul h ha hb, map_mul, eval_denote h henv ha hs, eval_denote h henv hb ht,
    Domain.toRat_mul h]

end

/-- At a point of an exact domain, whether the values are given by name or by slot, polynomials `a`
and `b` have values `s` and `t`, and every operation on them is granted and has the value of the
same operation on `s` and `t`. `Poly.Reachable.wellFormed` provides the hypotheses on the terms. -/
theorem eval_homomorphism (h : R.domain ≠ .real) {a b : Poly R} (ha : a.WellFormed)
    (hb : b.WellFormed) (x : Fin R.arity → R.Carrier) (k : R.Carrier) (n : Nat) :
    (Env.named x).Assigns x ∧ (Env.bySlot (List.ofFn x)).Assigns x ∧
    ∃ s t, ∀ env : Env R.Carrier, env.Assigns x →
      a.eval env = .ok s ∧ b.eval env = .ok t ∧
      HasValue (a.plus (.poly R b)) env (s + t) ∧
      HasValue (a.minus (.poly R b)) env (s - t) ∧
      HasValue (a.times (.poly R b)) env (s * t) ∧
      a.neg.eval env = .ok (Coefficient.negate s) ∧
      (a.scale k).eval env = .ok (s * k) ∧ HasValue (a.times (.scalar k)) env (s * k) ∧
      HasValue (a.powInt n) env (Coefficient.power s n) ∧
      (one : Poly R).eval env = .ok 1 ∧ (empty : Poly R).eval env = .ok 0 ∧
      ∀ i : Fin R.arity,
        HasValue (ofVariable (String.ofList [R.variableAt i]) : Except _ (Poly R)) env (x i) := by
  refine ⟨Env.assigns_named x, Env.assigns_bySlot x, ?_⟩
  obtain ⟨s, -, hs⟩ := eval_of_assigns h ha (Env.assigns_named x)
  obtain ⟨t, -, ht⟩ := eval_of_assigns h hb (Env.assigns_named x)
  refine ⟨s, t, fun env henv => ?_⟩
  have hs := eval_eq_of_denote h henv ha hs
  have ht := eval_eq_of_denote h henv hb ht
  have hscale := eval_scale h henv ha hs k
  refine ⟨hs, ht, ⟨_, plus_poly a b, eval_add h henv ha hs hb ht⟩,
    ⟨_, minus_poly a b, eval_sub h henv ha hs hb ht⟩,
    ⟨_, times_poly a b, eval_mul h henv ha hs hb ht⟩, eval_neg h henv ha hs, hscale,
    ⟨_, rfl, hscale⟩, ⟨_, rfl, eval_pow h henv ha hs n⟩, eval_one h henv, eval_empty h henv, ?_⟩
  intro i
  exact ⟨_, ofVariable_variableAt i, eval_atSlot h henv i⟩

/-- In the product of `x + y` and `x - y` two terms cancel. At the point `(2, 3)`, given by name in
another order or as a list with a value too many, it has the product of the values. -/
theorem eval_homomorphism_cancelling :
    let R : PolyRing := ⟨.integer, ['x', 'y'], by simp, by simp, by simp [alphabet]⟩
    let a : Poly R := ⟨[⟨(1 : Int), [1, 0]⟩, ⟨(1 : Int), [0, 1]⟩]⟩
    let b : Poly R := ⟨[⟨(1 : Int), [1, 0]⟩, ⟨(-1 : Int), [0, 1]⟩]⟩
    let x : Fin R.arity → R.Carrier := fun i => if i.val = 0 then (2 : Int) else (3 : Int)
    let byName : Env R.Carrier := .byName [("y", (3 : Int)), ("x", (2 : Int))]
    let bySlot : Env R.Carrier := .bySlot [(2 : Int), (3 : Int), (7 : Int)]
    R.domain ≠ .real ∧ a.WellFormed ∧ b.WellFormed ∧ byName.Assigns x ∧ bySlot.Assigns x ∧
      a.eval byName = .ok (5 : Int) ∧ b.eval byName = .ok (-1 : Int) ∧
      (a.mul b).terms = [⟨(1 : Int), [2, 0]⟩, ⟨(0 : Int), [1, 1]⟩, ⟨(-1 : Int), [0, 2]⟩] ∧
      HasValue (a.times (.poly R b)) byName (-5 : Int) ∧
      HasValue (a.times (.poly R b)) bySlot (-5 : Int) ∧
      HasValue (a.powInt 3) bySlot (125 : Int) := by
  intro R a b x byName bySlot
  have hexact : R.domain ≠ .real := by decide
  have ha : a.WellFormed := ⟨by unfold Ordered; decide, by decide⟩
  have hb : b.WellFormed := ⟨by unfold Ordered; decide, by decide⟩
  have hname : byName.Assigns x := by unfold Env.Assigns; decide
  have hslot : bySlot.Assigns x := by unfold Env.Assigns; decide
  have hvalueA : a.eval byName = .ok (5 : Int) := rfl
  have hvalueB : b.eval byName = .ok (-1 : Int) := rfl
  obtain ⟨-, -, s, t, hvalues⟩ := eval_homomorphism hexact ha hb x (10 : Int) 3
  obtain ⟨hs, ht, -, -, hproduct, -⟩ := hvalues byName hname
  obtain rfl : s = (5 : Int) := Except.ok.inj (hs.symm.trans hvalueA)
  obtain rfl : t = (-1 : Int) := Except.ok.inj (ht.symm.trans hvalueB)
  obtain ⟨-, -, -, -, hproduct', -, -, -, hpower, -⟩ := hvalues bySlot hslot
  exact ⟨hexact, ha, hb, hname, hslot, hvalueA, hvalueB, rfl, hproduct, hproduct', hpower⟩

end Poly
end Multipoly
