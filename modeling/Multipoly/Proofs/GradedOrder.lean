import Multipoly.Proofs.WellFormed

/-!
# The graded order of terms

The term of higher degree is listed first, and of two terms of one degree the one with the higher
power in the first slot where they differ. Whatever the coefficients are, the order is the
comparison of the sort keys, it is a strict total order on the power vectors of a ring, and it is
kept by multiplication.

Results:
* `Powers.order_eq_compareKeys`: the order of terms is the order of their keys;
* `Powers.order_eq_lt_iff`: which of two terms is listed first;
* `Powers.eq_zeros_of_degree`: only the constant term has degree zero;
* `Monomial.graded_order`: the laws of the order of terms.
-/
namespace Multipoly

namespace Powers

/-! ## Keys -/

/-- Negation turns the order of numbers around. -/
theorem compare_neg (a b : Nat) : compare (-(a : Int)) (-(b : Int)) = compare b a := by
  have hlt : (-(a : Int) < -(b : Int)) ↔ b < a := by omega
  have heq : (-(a : Int) = -(b : Int)) ↔ b = a := by omega
  simp only [compare, compareOfLessAndEq, hlt, heq]

theorem lex_eq_compareLex_neg (u v : Powers) :
    lex u v = List.compareLex compare (u.map fun (p : Nat) => -(p : Int))
      (v.map fun (p : Nat) => -(p : Int)) := by
  induction u generalizing v with
  | nil => cases v <;> rfl
  | cons a u ih =>
    cases v with
    | nil => rfl
    | cons b v => rw [List.map_cons, List.map_cons, List.compareLex_cons_cons, compare_neg, lex, ih]

/-- Terms are listed by ascending keys. -/
theorem order_eq_compareKeys (u v : Powers) : order u v = compareKeys u.sortKey v.sortKey := by
  rw [order, lex_eq_compareLex_neg, ← compare_neg]
  rfl

/-! ## The first difference -/

theorem lex_eq_lt_iff {u v : Powers} (h : u.length = v.length) :
    lex u v = .lt ↔
      ∃ slot, (∀ j < slot, u.getD j 0 = v.getD j 0) ∧ v.getD slot 0 < u.getD slot 0 := by
  induction u generalizing v with
  | nil =>
    obtain rfl := List.length_eq_zero_iff.1 h.symm
    simp [lex]
  | cons a u ih =>
    obtain ⟨b, v, rfl⟩ := List.exists_cons_of_length_eq_add_one h.symm
    rw [lex, Ordering.then_eq_lt, ih (Nat.succ_inj.1 h), Nat.compare_eq_lt, Nat.compare_eq_eq]
    -- Either the first slot decides, or it ties and a later one does.
    refine Iff.trans (or_congr ?first ?later) Nat.or_exists_add_one
    case first => simp
    case later =>
      simp only [Nat.forall_lt_succ_left, List.getD_cons_zero, List.getD_cons_succ, and_assoc,
        exists_and_left, eq_comm]

theorem order_eq_lt_iff {u v : Powers} (h : u.length = v.length) :
    order u v = .lt ↔ v.degree < u.degree ∨ u.degree = v.degree ∧
      ∃ slot, (∀ j < slot, u.getD j 0 = v.getD j 0) ∧ v.getD slot 0 < u.getD slot 0 := by
  rw [order, Ordering.then_eq_lt, lex_eq_lt_iff h, Nat.compare_eq_lt, Nat.compare_eq_eq,
    eq_comm (a := v.degree)]

/-! ## The constant term -/

theorem eq_zeros_of_degree {u : Powers} (h : u.degree = 0) : u = List.replicate u.length 0 := by
  induction u with
  | nil => rfl
  | cons a u ih =>
    rw [degree, Nat.add_eq_zero_iff] at h
    rw [List.length_cons, List.replicate_succ, ← ih h.2, h.1]

end Powers

namespace Monomial
variable {R : PolyRing} {a b c : Monomial R}

/-- Every other term is listed before the constant term. -/
theorem order_constant (ha : a.Fits) (h : a.powers ≠ R.noPowers) (k : R.Carrier) :
    a.order (constant k) = .lt := by
  have hlength : a.powers.length = R.arity := ha
  have hdegree : a.powers.degree ≠ 0 := by
    intro hzero
    have hzeros := Powers.eq_zeros_of_degree hzero
    rw [hlength] at hzeros
    exact h hzeros
  refine (Powers.order_eq_lt_iff (hlength.trans (length_noPowers R).symm)).2 (.inl ?_)
  show Powers.degree R.noPowers < _
  rw [PolyRing.noPowers, Powers.degree_zeros]
  exact Nat.pos_of_ne_zero hdegree

/-- A product that is not zero was not collapsed. -/
theorem powers_mul_of_isZero_eq_false (h : (a.mul c).isZero = false) :
    (a.mul c).powers = List.zipWith (· + ·) a.powers c.powers := by
  unfold mul at h ⊢
  dsimp only at h ⊢
  split
  · rename_i hzero
    rw [if_pos hzero] at h
    exact absurd (hzero.symm.trans h) (by decide)
  · rfl

/-- The order of the terms of a ring is the order of their keys. It is a total order up to the
coefficients: turning the terms around turns it around, it ties exactly the terms with equal powers,
and it is transitive. A higher degree comes first and, at equal degree, the higher power in the
first slot that differs; so the constant term is last. Multiplying both terms by a third one keeps
the order. -/
theorem graded_order (ha : a.Fits) (hb : b.Fits) (hc : c.Fits) :
    a.order b = Powers.compareKeys a.powers.sortKey b.powers.sortKey ∧
    a.order b = (b.order a).swap ∧
    (a.order b = .eq ↔ a.powers = b.powers) ∧
    (a.order b = .lt → b.order c = .lt → a.order c = .lt) ∧
    (a.order b = .lt ↔ b.degree < a.degree ∨ a.degree = b.degree ∧
      ∃ slot, (∀ j < slot, a.power j = b.power j) ∧ b.power slot < a.power slot) ∧
    (∀ k : R.Carrier, a.powers ≠ R.noPowers → a.order (constant k) = .lt) ∧
    Powers.order (List.zipWith (· + ·) a.powers c.powers)
      (List.zipWith (· + ·) b.powers c.powers) = a.order b ∧
    ((a.mul c).isZero = false → (b.mul c).isZero = false →
      (a.mul c).order (b.mul c) = a.order b) := by
  have hsum := Powers.order_add_right ha hb hc
  refine ⟨Powers.order_eq_compareKeys _ _, @Std.OrientedCmp.eq_swap _ Powers.order _ _ _,
    Powers.order_eq_iff, Powers.order_lt_trans, Powers.order_eq_lt_iff (ha.trans hb.symm),
    fun k h => order_constant ha h k, hsum, fun hac hbc => ?_⟩
  rw [order, powers_mul_of_isZero_eq_false hac, powers_mul_of_isZero_eq_false hbc]
  exact hsum

/-- Of the terms `0x²` and `2xy`, which have one degree, the first has the higher power in the first
slot; the term `-3` comes after both. -/
theorem graded_order_tie :
    let R : PolyRing := ⟨.integer, ['x', 'y'], by simp, by simp, by simp [alphabet]⟩
    let a : Monomial R := ⟨(0 : Int), [2, 0]⟩
    let b : Monomial R := ⟨(2 : Int), [1, 1]⟩
    let c : Monomial R := ⟨(-3 : Int), [0, 0]⟩
    a.Fits ∧ b.Fits ∧ c.Fits ∧ a.degree = b.degree ∧ a.order b = .lt ∧ b.order a = .gt ∧
      b.order c = .lt ∧ a.order c = .lt ∧
      Powers.compareKeys (-2, [-2, 0]) (-2, [-1, -1]) = .lt := by
  intro R a b c
  have ha : a.Fits := by decide
  have hb : b.Fits := by decide
  have hc : c.Fits := by decide
  obtain ⟨hkeys, hswap, -, htrans, hlt, -⟩ := graded_order ha hb hc
  obtain ⟨-, -, -, -, -, hlast, -⟩ := graded_order hb ha hc
  have hab : a.order b = .lt := hlt.2 (.inr ⟨rfl, 0, by decide, by decide⟩)
  have hbc : b.order c = .lt := hlast _ (by decide)
  have hba : b.order a = .gt := by
    rw [hab] at hswap
    exact Ordering.swap_eq_lt.1 hswap.symm
  exact ⟨ha, hb, hc, rfl, hab, hba, hbc, htrans hab hbc, hkeys.symm.trans hab⟩

end Monomial
end Multipoly
