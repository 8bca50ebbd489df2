import Mathlib.Algebra.MvPolynomial.NoZeroDivisors
import Multipoly.Proofs.Identity
import Multipoly.Proofs.StoredTerms

/-!
# Leading terms and degrees

The first non-zero term of a polynomial has the highest degree, and the order of terms is kept when
the same powers are added on both sides. So the product of two leading terms is listed before every
other product of terms, none of which can cancel it, and degrees add up. The degree in one variable
is not read off the order; it is that of the denotation, where the coefficients have no zero
divisors.

Results:
* `Poly.leading_of_denote`: a term that no other one reaches is the leading one;
* `Poly.leading_mul`, `Poly.isZero_mul`: leading terms multiply, so products of non-zero polynomials
  are not zero;
* `Poly.degree_of_leading`, `Poly.degree_mul`, `Poly.degree_pow`: the degree;
* `Poly.degreeIn_eq`, `Poly.degreeIn_mul`: the degree in one variable;
* `Poly.leading_terms_multiply`: all of them.
-/
namespace Multipoly
open MvPolynomial

variable {R : PolyRing}

namespace Poly

/-- The first term that is not zero. -/
def leading (p : Poly R) : Option (Monomial R) := p.nonzero.head?

theorem exists_leading {p : Poly R} (hp : p.isZero = false) : ∃ m, p.leading = some m := by
  have hne : p.nonzero ≠ [] := by
    rw [ne_eq, ← isZero_iff_nonzero_eq_nil, hp]
    exact Bool.false_ne_true
  exact ⟨p.nonzero.head hne, List.head?_eq_some_head hne⟩

theorem mem_of_leading {p : Poly R} {m : Monomial R} (hm : p.leading = some m) :
    m ∈ p.terms ∧ ¬ m.isZero = true :=
  mem_nonzero.1 (List.mem_of_mem_head? hm)

/-- The other non-zero terms are listed after the leading one. -/
theorem exists_rest_of_leading {p : Poly R} (hp : p.WellFormed) {m : Monomial R}
    (hm : p.leading = some m) : ∃ ms, p.nonzero = m :: ms ∧ ∀ n ∈ ms, m.order n = .lt := by
  obtain ⟨ms, hms⟩ := List.head?_eq_some_iff.1 hm
  have hordered : p.nonzero.Pairwise fun m n => m.order n = .lt := hp.prune.ordered
  rw [hms] at hordered
  exact ⟨ms, hms, (List.pairwise_cons.1 hordered).1⟩

/-! ## Products of leading terms -/

/-- The product of the first terms is listed before all other products. -/
theorem order_products {m n : Monomial R} {ms ns : List (Monomial R)}
    (hms : ∀ m' ∈ m :: ms, m'.Fits) (hns : ∀ n' ∈ n :: ns, n'.Fits)
    (hm : ∀ m' ∈ ms, m.order m' = .lt) (hn : ∀ n' ∈ ns, n.order n' = .lt) :
    ∃ rest, products (m :: ms) (n :: ns) = m.product n :: rest ∧
      ∀ r ∈ rest, (m.product n).order r = .lt := by
  have hmfits := hms m List.mem_cons_self
  have hnfits := hns n List.mem_cons_self
  refine ⟨ns.map m.product ++ products ms (n :: ns), rfl, fun r hr => ?_⟩
  rcases List.mem_append.1 hr with hr | hr
  · obtain ⟨n', hn', rfl⟩ := List.mem_map.1 hr
    have hnfits' := hns n' (List.mem_cons_of_mem n hn')
    exact (Powers.order_add_left hnfits hnfits' hmfits).trans (hn n' hn')
  · obtain ⟨m', hm', hr⟩ := List.mem_flatMap.1 hr
    obtain ⟨n', hn', rfl⟩ := List.mem_map.1 hr
    have hmfits' := hms m' (List.mem_cons_of_mem m hm')
    refine Powers.order_add_lt hmfits hmfits' hnfits (hns n' hn') (hm m' hm') ?_
    rcases List.mem_cons.1 hn' with rfl | hn'
    · rw [Powers.order_self]
      rfl
    · have hlt : Powers.order n.powers n'.powers = .lt := hn n' hn'
      rw [hlt]
      rfl

section
variable (h : R.domain ≠ .real)
include h

/-- A non-zero term that is listed before all others of a sum is the leading term of each polynomial
that denotes the sum, for the others cannot cancel it. -/
theorem leading_of_denote {p : Poly R} (hp : p.WellFormed) {m : Monomial R}
    {ms : List (Monomial R)} (hdenote : p.denote = denote ⟨m :: ms⟩)
    (hfits : ∀ n ∈ m :: ms, n.Fits) (hm : ¬ m.isZero = true) (hms : ∀ n ∈ ms, m.order n = .lt) :
    p.leading = some m := by
  have hnotMem : m.powers ∉ ms.map (·.powers) := by
    intro hmem
    obtain ⟨n, hn, heq⟩ := List.mem_map.1 hmem
    have hlt := hms n hn
    rw [Monomial.order, heq] at hlt
    exact Powers.order_lt_irrefl _ hlt
  have hmem : m ∈ p.nonzero := by
    have hmfits := hfits m List.mem_cons_self
    refine (mem_nonzero_iff h hp).2 ⟨hmfits, fun hzero => hm ((Domain.isZero_iff h).2 hzero), ?_⟩
    rw [hdenote, denote_cons, coeff_add, coeff_denote_monomial hmfits hmfits, if_pos rfl,
      coeff_of_notMem (fun n hn => hfits n (List.mem_cons_of_mem _ hn)) hmfits hnotMem, add_zero]
  -- A non-zero term before it would have a coefficient that no term of the sum provides.
  have hfirst : ∀ n ∈ p.nonzero, ¬ n.order m = .lt := by
    intro n hn hlt
    obtain ⟨hnfits, hne, hcoeff⟩ := (mem_nonzero_iff h hp).1 hn
    have hpowers : n.powers ∈ (m :: ms).map (·.powers) := by
      by_contra hnot
      rw [hdenote, coeff_of_notMem hfits hnfits hnot] at hcoeff
      exact hne hcoeff.symm
    rcases List.mem_cons.1 hpowers with heq | hrest
    · rw [Monomial.order, heq] at hlt
      exact Powers.order_lt_irrefl _ hlt
    · obtain ⟨n', hn', heq⟩ := List.mem_map.1 hrest
      have hlt' := hms n' hn'
      rw [Monomial.order, heq] at hlt'
      exact Powers.order_lt_irrefl _ (Powers.order_lt_trans hlt hlt')
  have hne : p.isZero = false := by
    rw [← Bool.not_eq_true, isZero_iff_nonzero_eq_nil]
    exact List.ne_nil_of_mem hmem
  obtain ⟨l, hl⟩ := exists_leading hne
  obtain ⟨ls, hls, hbefore⟩ := exists_rest_of_leading hp hl
  rw [hls] at hmem hfirst
  rcases List.mem_cons.1 hmem with rfl | hmem
  · exact hl
  · exact absurd (hbefore m hmem) (hfirst l List.mem_cons_self)

variable {p q : Poly R} (hp : p.WellFormed) (hq : q.WellFormed)
include hp hq

theorem leading_mul {m n : Monomial R} (hm : p.leading = some m) (hn : q.leading = some n) :
    (p.mul q).leading = some (m.mul n) := by
  obtain ⟨hmem, hmzero⟩ := mem_of_leading hm
  obtain ⟨hmem', hnzero⟩ := mem_of_leading hn
  have hzero : ¬ Coefficient.isZero (m.coeff * n.coeff) = true := fun hzero =>
    ((Domain.isZero_mul h).1 hzero).elim hmzero hnzero
  obtain ⟨ms, hms, hafter⟩ := exists_rest_of_leading hp hm
  obtain ⟨ns, hns, hafter'⟩ := exists_rest_of_leading hq hn
  obtain ⟨rest, hrest, hbefore⟩ := order_products (hms ▸ hp.prune.fits) (hns ▸ hq.prune.fits)
    hafter hafter'
  have hproducts : products p.nonzero q.nonzero = m.product n :: rest := by rw [hms, hns, hrest]
  have hfits := fits_products hp.prune.fits hq.prune.fits
  have hdenote := denote_mul_eq_products h hp hq
  rw [hproducts] at hdenote
  rw [Monomial.mul_eq_product, if_neg hzero]
  exact leading_of_denote h (hp.mul hq) hdenote (hproducts ▸ hfits) hzero hbefore

theorem isZero_mul : (p.mul q).isZero = true ↔ p.isZero = true ∨ q.isZero = true := by
  rw [isZero_iff_denote_eq_zero h (hp.mul hq), isZero_iff_denote_eq_zero h hp,
    isZero_iff_denote_eq_zero h hq, denote_mul h hp hq, mul_eq_zero]

end

/-! ## Degrees -/

theorem foldl_max_le_iff {xs : List Nat} {k b : Nat} :
    xs.foldl max k ≤ b ↔ k ≤ b ∧ ∀ x ∈ xs, x ≤ b := by
  induction xs generalizing k with
  | nil => simp
  | cons x xs ih => rw [List.foldl_cons, ih, max_le_iff, List.forall_mem_cons, and_assoc]

theorem degree_of_leading {p : Poly R} (hp : p.WellFormed) {m : Monomial R}
    (hm : p.leading = some m) : p.degree = m.degree := by
  obtain ⟨ms, hms, hafter⟩ := exists_rest_of_leading hp hm
  refine eq_of_forall_ge_iff fun b => ?_
  rw [degree, hms, foldl_max_le_iff, List.forall_mem_map, List.forall_mem_cons]
  refine ⟨fun hall => hall.2.1, fun hfirst => ⟨Nat.zero_le b, hfirst, fun n hn => ?_⟩⟩
  exact (Powers.degree_le_of_order (hafter n hn)).trans hfirst

theorem degree_one : (one : Poly R).degree = 0 := by
  refine Nat.le_zero.1 (foldl_max_le_iff.2 ⟨Nat.le_refl 0, List.forall_mem_map.2 fun m hm => ?_⟩)
  obtain rfl := List.mem_singleton.1 (List.mem_filter.1 hm).1
  exact Nat.le_of_eq (Powers.degree_zeros R.arity)

section
variable (h : R.domain ≠ .real) {p q : Poly R} (hp : p.WellFormed)
  (hpzero : p.isZero = false)
include h hp hpzero

theorem degree_mul (hq : q.WellFormed) (hqzero : q.isZero = false) :
    (p.mul q).degree = p.degree + q.degree := by
  obtain ⟨m, hm⟩ := exists_leading hpzero
  obtain ⟨n, hn⟩ := exists_leading hqzero
  obtain ⟨hmem, hmzero⟩ := mem_of_leading hm
  obtain ⟨hmem', hnzero⟩ := mem_of_leading hn
  have hpowers := Monomial.powers_mul_of_not_isZero h (not_or.2 ⟨hmzero, hnzero⟩)
  have hlength : m.powers.length = n.powers.length :=
    (hp.fits m hmem).trans (hq.fits n hmem').symm
  rw [degree_of_leading (hp.mul hq) (leading_mul h hp hq hm hn), degree_of_leading hp hm,
    degree_of_leading hq hn, Monomial.degree, hpowers]
  exact Powers.degree_zipWith_add hlength

theorem degree_pow (n : Nat) : (p.pow n).degree = n * p.degree := by
  cases n with
  | zero => rw [Nat.zero_mul]; exact degree_one
  | succ n =>
    have hrepeat : (Nat.repeat (·.mul p) n p).WellFormed ∧
        (Nat.repeat (·.mul p) n p).isZero = false ∧
        (Nat.repeat (·.mul p) n p).degree = (n + 1) * p.degree := by
      induction n with
      | zero => exact ⟨hp, hpzero, (Nat.one_mul _).symm⟩
      | succ n ih =>
        obtain ⟨hwell, hzero, hdegree⟩ := ih
        refine ⟨hwell.mul hp, ?_, ?_⟩
        · rw [Nat.repeat, ← Bool.not_eq_true, isZero_mul h hwell hp, hzero, hpzero]
          simp
        · rw [Nat.repeat, degree_mul h hwell hzero hp hpzero, hdegree, ← Nat.succ_mul]
    exact hrepeat.2.2

end

/-! ## Degrees in one variable -/

section
variable (h : R.domain ≠ .real) {p q : Poly R} (hp : p.WellFormed) (hq : q.WellFormed)
include h hp

/-- The exponents of what is denoted are the powers of the non-zero terms. -/
theorem mem_support_denote {u : Fin R.arity →₀ ℕ} :
    u ∈ p.denote.support ↔ ∃ m ∈ p.nonzero, Powers.exponent R.arity m.powers = u := by
  rw [mem_support_iff]
  constructor
  · intro hcoeff
    have hlength : (List.ofFn u).length = R.arity := List.length_ofFn
    have hexponent : Powers.exponent R.arity (List.ofFn u) = u := by
      ext i
      rw [Powers.exponent_apply]
      simp
    by_contra hnone
    have hnotMem : List.ofFn u ∉ p.nonzero.map (·.powers) := by
      intro hmem
      obtain ⟨m, hm, heq⟩ := List.mem_map.1 hmem
      exact hnone ⟨m, hm, by rw [heq, hexponent]⟩
    rw [← hexponent, ← denote_nonzero h p] at hcoeff
    exact hcoeff (coeff_of_notMem hp.prune.fits hlength hnotMem)
  · intro hterm
    obtain ⟨m, hm, rfl⟩ := hterm
    obtain ⟨-, hne, hcoeff⟩ := (mem_nonzero_iff h hp).1 hm
    rw [hcoeff]
    exact hne

theorem degreeIn_eq {name : String} {i : Fin R.arity} (hi : R.slot name = .ok (i : Nat)) :
    p.degreeIn name = .ok (degreeOf i p.denote) := by
  have hpower : ∀ m : Monomial R, m.degreeIn name = .ok (m.power i) := by
    intro m
    rw [Monomial.degreeIn, hi]
    rfl
  have hpowers : p.nonzero.mapM (·.degreeIn name) = .ok (p.nonzero.map (·.power i)) := by
    simp only [hpower]
    exact List.mapM_pure
  have hmax : (p.nonzero.map (·.power i)).foldl max 0 = degreeOf i p.denote := by
    refine eq_of_forall_ge_iff fun b => ?_
    rw [foldl_max_le_iff, List.forall_mem_map, degreeOf_le_iff]
    simp only [mem_support_denote h hp, Nat.zero_le, true_and, forall_exists_index, and_imp,
      forall_apply_eq_imp_iff₂]
    rfl
  rw [degreeIn, hpowers, ← hmax]
  rfl

include hq in
theorem degreeIn_mul (hpzero : p.isZero = false) (hqzero : q.isZero = false) {name : String}
    {i : Fin R.arity} (hi : R.slot name = .ok (i : Nat)) :
    ∃ d e, p.degreeIn name = .ok d ∧ q.degreeIn name = .ok e ∧
      (p.mul q).degreeIn name = .ok (d + e) := by
  have hne : p.denote ≠ 0 := by
    rw [ne_eq, ← isZero_iff_denote_eq_zero h hp, hpzero]
    exact Bool.false_ne_true
  have hne' : q.denote ≠ 0 := by
    rw [ne_eq, ← isZero_iff_denote_eq_zero h hq, hqzero]
    exact Bool.false_ne_true
  refine ⟨_, _, degreeIn_eq h hp hi, degreeIn_eq h hq hi, ?_⟩
  rw [degreeIn_eq h (hp.mul hq) hi, denote_mul h hp hq, degreeOf_mul_eq hne hne']

end

/-! ## All at once -/

/-- Over an exact domain the leading term of a product is the product of the leading terms, the
degree and the degree in each variable add up, and a product is zero only if a factor is. The degree
of a non-zero polynomial is that of its leading term, and its powers have the multiples of it.
`Poly.Reachable.wellFormed` provides the hypotheses on the terms. -/
theorem leading_terms_multiply (h : R.domain ≠ .real) {a b : Poly R} (ha : a.WellFormed)
    (hb : b.WellFormed) :
    ∃ t : Poly R, a.times (.poly R b) = .ok t ∧
      (t.isZero = true ↔ a.isZero = true ∨ b.isZero = true) ∧
      (a.isZero = false →
        (∃ m, a.leading = some m ∧ a.degree = m.degree) ∧
        ∀ n : Nat, ∃ r, a.powInt n = .ok r ∧ r.degree = n * a.degree) ∧
      (a.isZero = false → b.isZero = false →
        (∃ m n l, a.leading = some m ∧ b.leading = some n ∧ m.mulAny n = .ok l ∧
          t.leading = some l) ∧
        t.degree = a.degree + b.degree ∧
        ∀ v ∈ R.vars, ∃ d e, a.degreeIn (String.ofList [v]) = .ok d ∧
          b.degreeIn (String.ofList [v]) = .ok e ∧ t.degreeIn (String.ofList [v]) = .ok (d + e)) := by
  refine ⟨a.mul b, times_poly a b, isZero_mul h ha hb, fun hazero => ⟨?leading, fun n => ?pow⟩,
    fun hazero hbzero => ⟨?product, degree_mul h ha hazero hb hbzero, fun v hv => ?degreeIn⟩⟩
  case leading =>
    obtain ⟨m, hm⟩ := exists_leading hazero
    exact ⟨m, hm, degree_of_leading ha hm⟩
  case pow => exact ⟨a.pow n, rfl, degree_pow h ha hazero n⟩
  case product =>
    obtain ⟨m, hm⟩ := exists_leading hazero
    obtain ⟨n, hn⟩ := exists_leading hbzero
    exact ⟨m, n, m.mul n, hm, hn, dif_pos rfl, leading_mul h ha hb hm hn⟩
  case degreeIn =>
    obtain ⟨i, hi⟩ := PolyRing.exists_slot_of_mem hv
    exact degreeIn_mul h ha hb hazero hbzero hi

/-- In `x² + y` and `0x³ + xy - y²` the leading term is not the one with the highest power of `y`,
and the second polynomial stores a zero term before it. -/
theorem leading_terms_multiply_zero_term :
    let R : PolyRing := ⟨.integer, ['x', 'y'], by simp, by simp, by simp [alphabet]⟩
    let a : Poly R := ⟨[⟨(1 : Int), [2, 0]⟩, ⟨(1 : Int), [0, 1]⟩]⟩
    let b : Poly R := ⟨[⟨(0 : Int), [3, 0]⟩, ⟨(1 : Int), [1, 1]⟩, ⟨(-1 : Int), [0, 2]⟩]⟩
    R.domain ≠ .real ∧ a.WellFormed ∧ b.WellFormed ∧ a.isZero = false ∧ b.isZero = false ∧
      ∃ t : Poly R, a.times (.poly R b) = .ok t ∧ t.isZero = false ∧
        t.leading = some ⟨(1 : Int), [3, 1]⟩ ∧ t.degree = 4 ∧ t.degreeIn "y" = .ok 3 := by
  intro R a b
  have hexact : R.domain ≠ .real := by decide
  have ha : a.WellFormed := ⟨by unfold Ordered; decide, by decide⟩
  have hb : b.WellFormed := ⟨by unfold Ordered; decide, by decide⟩
  have hazero : a.isZero = false := rfl
  have hbzero : b.isZero = false := rfl
  obtain ⟨t, ht, hzero, -, hproduct⟩ := leading_terms_multiply hexact ha hb
  obtain ⟨⟨m, n, l, hm, hn, hl, hleading⟩, hdegree, hvars⟩ := hproduct hazero hbzero
  obtain ⟨d, e, hd, he, hde⟩ := hvars 'y' (by decide)
  obtain rfl : ⟨(1 : Int), [2, 0]⟩ = m := Option.some.inj hm
  obtain rfl : ⟨(1 : Int), [1, 1]⟩ = n := Option.some.inj hn
  obtain rfl : ⟨(1 : Int), [3, 1]⟩ = l := Except.ok.inj hl
  obtain rfl : 1 = d := Except.ok.inj hd
  obtain rfl : 2 = e := Except.ok.inj he
  exact ⟨hexact, ha, hb, hazero, hbzero, t, ht, by simpa [hazero, hbzero] using hzero, hleading,
    hdegree, hde⟩

end Poly
end Multipoly
