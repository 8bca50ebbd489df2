import Multipoly.Proofs.Denotation
import Multipoly.Proofs.SameRing

/-!
# The stored terms of sums and products

Which power vectors are stored after an operation, and with which coefficients. Nothing is dropped:
a sum keeps the powers of both operands, also where the coefficients cancel, and a product keeps the
powers of every product of terms. A product of terms whose coefficient is zero is stored as the
constant term.

Results:
* `Poly.mem_keys_foldl`: the powers stored by merges one after the other;
* `Poly.toRat_coeffAt`: stored coefficients are those of the denotation;
* `Poly.mem_keys_mul_iff`, `Poly.coeffAt_mul`: the powers and coefficients of a product;
* `Poly.stored_arithmetic`: sums, differences and products in full.
-/
namespace Multipoly
open MvPolynomial

variable {R : PolyRing}

/-! ## Keys and coefficients -/

namespace Poly

/-- The power vectors of the stored terms, zero terms counted. -/
def keys (p : Poly R) : List Powers := p.terms.map (·.powers)

/-- The coefficient stored for a power vector, zero when there is none. -/
def coeffAt (p : Poly R) (v : Powers) : R.Carrier :=
  ((p.terms.find? fun m => m.powers = v).map (·.coeff)).getD 0

theorem coeffAt_of_notMem {p : Poly R} {v : Powers} (hv : v ∉ p.keys) : p.coeffAt v = 0 := by
  have hnone : p.terms.find? (fun m => m.powers = v) = none := by
    rw [List.find?_eq_none]
    intro m hm heq
    exact hv (List.mem_map.2 ⟨m, hm, of_decide_eq_true heq⟩)
  rw [coeffAt, hnone]
  rfl

theorem coeffAt_of_mem {p : Poly R} (hp : p.Ordered) {m : Monomial R} (hm : m ∈ p.terms) :
    p.coeffAt m.powers = m.coeff := by
  cases hfind : p.terms.find? fun n => n.powers = m.powers with
  | none =>
    rw [List.find?_eq_none] at hfind
    exact absurd (decide_eq_true rfl) (hfind m hm)
  | some n =>
    have hpowers : n.powers = m.powers := by simpa using List.find?_some hfind
    have heq : n = m :=
      List.inj_on_of_nodup_map hp.nodup (List.mem_of_find?_eq_some hfind) hm hpowers
    rw [coeffAt, hfind, heq]
    rfl

theorem length_of_mem_keys {p : Poly R} (hp : p.WellFormed) {v : Powers} (hv : v ∈ p.keys) :
    v.length = R.arity := by
  obtain ⟨m, hm, rfl⟩ := List.mem_map.1 hv
  exact hp.fits m hm

/-- The stored coefficients are those of the denotation, and no term stands at a vector that is no
power vector of the ring. -/
theorem toRat_coeffAt (h : R.domain ≠ .real) {p : Poly R} (hp : p.WellFormed) (v : Powers) :
    R.domain.toRat (p.coeffAt v) =
      if v.length = R.arity then coeff (Powers.exponent R.arity v) p.denote else 0 := by
  by_cases hmem : v ∈ p.keys
  · rw [if_pos (length_of_mem_keys hp hmem)]
    obtain ⟨m, hm, rfl⟩ := List.mem_map.1 hmem
    rw [coeffAt_of_mem hp.ordered hm]
    exact (coeff_of_mem hp.fits hp.ordered.nodup hm).symm
  · rw [coeffAt_of_notMem hmem, Domain.toRat_zero h]
    split
    · rename_i hv
      exact (coeff_of_notMem hp.fits hv hmem).symm
    · rfl

/-! ## The powers that are stored -/

theorem mem_keys_addTerm (p : Poly R) (m : Monomial R) (v : Powers) :
    v ∈ (p.addTerm m).keys ↔ v ∈ p.keys ∨ v = m.powers :=
  (mem_powers_merge _ _ _ v p.terms).trans or_comm

theorem mem_keys_subTerm (p : Poly R) (m : Monomial R) (v : Powers) :
    v ∈ (p.subTerm m).keys ↔ v ∈ p.keys ∨ v = m.powers :=
  (mem_powers_merge _ _ _ v p.terms).trans or_comm

theorem mem_keys {p : Poly R} {v : Powers} : v ∈ p.keys ↔ ∃ m ∈ p.terms, v = m.powers := by
  rw [keys, List.mem_map]
  simp only [eq_comm]

/-- Steps that each keep what is stored and store more. -/
theorem mem_keys_foldl {α : Type} {f : Poly R → α → Poly R} {stores : α → Powers → Prop}
    (hf : ∀ p x v, v ∈ (f p x).keys ↔ v ∈ p.keys ∨ stores x v) (xs : List α) (p : Poly R)
    (v : Powers) : v ∈ (xs.foldl f p).keys ↔ v ∈ p.keys ∨ ∃ x ∈ xs, stores x v := by
  induction xs generalizing p with
  | nil => simp
  | cons x xs ih => rw [List.foldl_cons, ih, hf, List.exists_mem_cons_iff, or_assoc]

theorem mem_keys_add {p q : Poly R} {v : Powers} :
    v ∈ (p.add q).keys ↔ v ∈ p.keys ∨ v ∈ q.keys := by
  rw [add, mem_keys_foldl mem_keys_addTerm, ← mem_keys]

theorem mem_keys_sub {p q : Poly R} {v : Powers} :
    v ∈ (p.sub q).keys ↔ v ∈ p.keys ∨ v ∈ q.keys := by
  rw [sub, mem_keys_foldl mem_keys_subTerm, ← mem_keys]

theorem mem_keys_mul {p q : Poly R} {v : Powers} :
    v ∈ (p.mul q).keys ↔ ∃ m ∈ p.terms, ∃ n ∈ q.terms, v = (m.mul n).powers := by
  have hrow : ∀ (r : Poly R) (m : Monomial R) (v : Powers),
      v ∈ (q.terms.foldl (fun product n => product.addTerm (m.mul n)) r).keys ↔
        v ∈ r.keys ∨ ∃ n ∈ q.terms, v = (m.mul n).powers := fun r m =>
    mem_keys_foldl (fun r n => mem_keys_addTerm r (m.mul n)) q.terms r
  rw [mul, mem_keys_foldl hrow]
  exact or_iff_right List.not_mem_nil

end Poly

/-! ## Products over the exact domains -/

theorem Domain.isZero_mul {d : Domain} (h : d ≠ .real) {a b : d.Carrier} :
    Coefficient.isZero (a * b) = true ↔
      Coefficient.isZero a = true ∨ Coefficient.isZero b = true := by
  rw [isZero_iff h, isZero_iff h, isZero_iff h, toRat_mul h, mul_eq_zero]

namespace Monomial

theorem Fits.product {m n : Monomial R} (hm : m.Fits) (hn : n.Fits) : (m.product n).Fits := by
  have hm' : m.powers.length = R.arity := hm
  have hn' : n.powers.length = R.arity := hn
  show (List.zipWith (· + ·) m.powers n.powers).length = R.arity
  rw [List.length_zipWith, hm', hn', Nat.min_self]

/-- A product with a zero factor stands at the constant term. -/
theorem powers_mul_of_isZero (h : R.domain ≠ .real) {m n : Monomial R}
    (hzero : m.isZero = true ∨ n.isZero = true) : (m.mul n).powers = R.noPowers := by
  rw [mul_eq_product, if_pos ((Domain.isZero_mul h).2 hzero)]
  rfl

/-- Any other product stands at the sum of the powers. -/
theorem powers_mul_of_not_isZero (h : R.domain ≠ .real) {m n : Monomial R}
    (hzero : ¬ (m.isZero = true ∨ n.isZero = true)) : (m.mul n).powers = (m.product n).powers := by
  rw [mul_eq_product, if_neg fun hproduct => hzero ((Domain.isZero_mul h).1 hproduct)]

end Monomial

namespace Poly
variable {p q : Poly R}

/-- The powers of a product: sums of powers of non-zero terms, and those of the constant term if a
zero term takes part. -/
theorem mem_keys_mul_iff (h : R.domain ≠ .real) {v : Powers} :
    v ∈ (p.mul q).keys ↔
      (∃ m ∈ p.nonzero, ∃ n ∈ q.nonzero, v = (m.product n).powers) ∨
      (v = R.noPowers ∧ p.terms ≠ [] ∧ q.terms ≠ [] ∧
        ((∃ m ∈ p.terms, m.isZero = true) ∨ ∃ n ∈ q.terms, n.isZero = true)) := by
  rw [mem_keys_mul]
  constructor
  · intro hkey
    obtain ⟨m, hm, n, hn, hv⟩ := hkey
    by_cases hzero : m.isZero = true ∨ n.isZero = true
    · rw [Monomial.powers_mul_of_isZero h hzero] at hv
      refine .inr ⟨hv, List.ne_nil_of_mem hm, List.ne_nil_of_mem hn, ?_⟩
      exact hzero.imp (fun hz => ⟨m, hm, hz⟩) fun hz => ⟨n, hn, hz⟩
    · rw [Monomial.powers_mul_of_not_isZero h hzero] at hv
      rw [not_or] at hzero
      exact .inl ⟨m, mem_nonzero.2 ⟨hm, hzero.1⟩, n, mem_nonzero.2 ⟨hn, hzero.2⟩, hv⟩
  · intro hkey
    rcases hkey with ⟨m, hm, n, hn, hv⟩ | ⟨hv, hp, hq, hzero⟩
    · obtain ⟨hm, hmzero⟩ := mem_nonzero.1 hm
      obtain ⟨hn, hnzero⟩ := mem_nonzero.1 hn
      refine ⟨m, hm, n, hn, ?_⟩
      rw [Monomial.powers_mul_of_not_isZero h (not_or.2 ⟨hmzero, hnzero⟩), hv]
    · -- The zero term meets every term of the other operand, of which there is one.
      obtain ⟨m, hm⟩ := List.exists_mem_of_ne_nil _ hp
      obtain ⟨n, hn⟩ := List.exists_mem_of_ne_nil _ hq
      rcases hzero with ⟨m', hm', hz⟩ | ⟨n', hn', hz⟩
      · exact ⟨m', hm', n, hn, by rw [Monomial.powers_mul_of_isZero h (.inl hz), hv]⟩
      · exact ⟨m, hm, n', hn', by rw [Monomial.powers_mul_of_isZero h (.inr hz), hv]⟩

/-! ## The coefficients -/

/-- The products of the terms of two lists. -/
def products (ms ns : List (Monomial R)) : List (Monomial R) :=
  ms.flatMap fun m => ns.map m.product

/-- The sum of the products of two non-zero coefficients whose powers add up to `v`. -/
def convolution (p q : Poly R) (v : Powers) : R.Carrier :=
  (((products p.nonzero q.nonzero).filter fun m => m.powers = v).map (·.coeff)).sum

theorem fits_products {ms ns : List (Monomial R)} (hms : ∀ m ∈ ms, m.Fits)
    (hns : ∀ n ∈ ns, n.Fits) : ∀ m ∈ products ms ns, m.Fits := by
  intro mn hmn
  obtain ⟨m, hm, hmap⟩ := List.mem_flatMap.1 hmn
  obtain ⟨n, hn, rfl⟩ := List.mem_map.1 hmap
  exact (hms m hm).product (hns n hn)

section
variable (h : R.domain ≠ .real)
include h

theorem coeffAt_add (hp : p.WellFormed) (hq : q.WellFormed) (v : Powers) :
    (p.add q).coeffAt v = p.coeffAt v + q.coeffAt v := by
  rw [← Domain.toRat_inj h, Domain.toRat_add h, toRat_coeffAt h (hp.add hq), toRat_coeffAt h hp,
    toRat_coeffAt h hq, denote_add h, coeff_add]
  split
  · rfl
  · exact (add_zero 0).symm

theorem coeffAt_sub (hp : p.WellFormed) (hq : q.WellFormed) (v : Powers) :
    (p.sub q).coeffAt v = p.coeffAt v - q.coeffAt v := by
  rw [← Domain.toRat_inj h, Domain.toRat_sub h, toRat_coeffAt h (hp.sub hq), toRat_coeffAt h hp,
    toRat_coeffAt h hq, denote_sub h, coeff_sub]
  split
  · rfl
  · exact (sub_zero 0).symm

/-- What lists of terms denote, multiplied out. -/
theorem denote_products {ms ns : List (Monomial R)} (hms : ∀ m ∈ ms, m.Fits)
    (hns : ∀ n ∈ ns, n.Fits) : denote ⟨products ms ns⟩ = denote ⟨ms⟩ * denote ⟨ns⟩ := by
  induction ms with
  | nil => exact (zero_mul _).symm
  | cons m ms ih =>
    have hrow : ((ns.map m.product).map Monomial.denote).sum = m.denote * denote ⟨ns⟩ := by
      rw [denote, ← List.sum_map_mul_left, List.map_map]
      exact congrArg List.sum (List.map_congr_left fun n hn =>
        Monomial.denote_product h (hms m List.mem_cons_self) (hns n hn))
    have hrest := ih fun m' hm' => hms m' (List.mem_cons_of_mem _ hm')
    rw [denote] at hrest
    rw [denote_cons, add_mul, ← hrest, ← hrow, ← List.sum_append, ← List.map_append]
    rfl

/-- A product is made of the products of the non-zero terms. -/
theorem denote_mul_eq_products (hp : p.WellFormed) (hq : q.WellFormed) :
    (p.mul q).denote = denote ⟨products p.nonzero q.nonzero⟩ := by
  rw [denote_mul h hp hq, ← denote_nonzero h p, ← denote_nonzero h q]
  exact (denote_products h hp.prune.fits hq.prune.fits).symm

/-- The coefficient of powers that any number of terms may have. -/
theorem coeff_denote {ms : List (Monomial R)} (hms : ∀ m ∈ ms, m.Fits) {v : Powers}
    (hv : v.length = R.arity) :
    coeff (Powers.exponent R.arity v) (denote ⟨ms⟩) =
      R.domain.toRat ((ms.filter fun m => m.powers = v).map (·.coeff)).sum := by
  induction ms with
  | nil => exact (coeff_zero _).trans (Domain.toRat_zero h).symm
  | cons m ms ih =>
    rw [denote_cons, coeff_add, ih fun n hn => hms n (List.mem_cons_of_mem _ hn),
      coeff_denote_monomial (hms m List.mem_cons_self) hv]
    by_cases heq : m.powers = v
    · rw [if_pos heq, List.filter_cons_of_pos (by simpa using heq), List.map_cons, List.sum_cons,
        Domain.toRat_add h]
    · rw [if_neg heq, List.filter_cons_of_neg (by simpa using heq), zero_add]

theorem coeffAt_mul (hp : p.WellFormed) (hq : q.WellFormed) (v : Powers) :
    (p.mul q).coeffAt v = p.convolution q v := by
  have hfits : ∀ m ∈ products p.nonzero q.nonzero, m.Fits :=
    fits_products hp.prune.fits hq.prune.fits
  rw [← Domain.toRat_inj h, toRat_coeffAt h (hp.mul hq), denote_mul_eq_products h hp hq,
    convolution]
  split
  · rename_i hv
    exact coeff_denote h hfits hv
  · rename_i hv
    have hnil : (products p.nonzero q.nonzero).filter (fun m => m.powers = v) = [] := by
      refine List.filter_eq_nil_iff.2 fun m hm heq => hv ?_
      rw [← of_decide_eq_true heq]
      exact hfits m hm
    rw [hnil]
    exact (Domain.toRat_zero h).symm

end

/-! ## Sums, differences and products -/

/-- The sum and the difference store the powers of both operands with the sum and the difference of
the coefficients. The product stores the sums of powers of non-zero terms with the convolution of
the coefficients, and the constant term besides if a zero term meets another term. The stored lists
are well formed, so these powers and coefficients determine them. -/
theorem stored_arithmetic (h : R.domain ≠ .real) {a b : Poly R} (ha : a.WellFormed)
    (hb : b.WellFormed) :
    ∃ s d t : Poly R,
      a.plus (.poly R b) = .ok s ∧ a.minus (.poly R b) = .ok d ∧ a.times (.poly R b) = .ok t ∧
      s.WellFormed ∧ d.WellFormed ∧ t.WellFormed ∧
      ∀ v : Powers,
        (v ∈ s.keys ↔ v ∈ a.keys ∨ v ∈ b.keys) ∧ s.coeffAt v = a.coeffAt v + b.coeffAt v ∧
        (v ∈ d.keys ↔ v ∈ a.keys ∨ v ∈ b.keys) ∧ d.coeffAt v = a.coeffAt v - b.coeffAt v ∧
        (v ∈ t.keys ↔
          (∃ m ∈ a.nonzero, ∃ n ∈ b.nonzero, v = List.zipWith (· + ·) m.powers n.powers) ∨
          (v = R.noPowers ∧ a.terms ≠ [] ∧ b.terms ≠ [] ∧
            ((∃ m ∈ a.terms, m.isZero = true) ∨ ∃ n ∈ b.terms, n.isZero = true))) ∧
        t.coeffAt v = a.convolution b v := by
  refine ⟨a.add b, a.sub b, a.mul b, plus_poly a b, minus_poly a b, times_poly a b,
    ha.add hb, ha.sub hb, ha.mul hb, fun v => ?_⟩
  exact ⟨mem_keys_add, coeffAt_add h ha hb v, mem_keys_sub, coeffAt_sub h ha hb v,
    mem_keys_mul_iff h, coeffAt_mul h ha hb v⟩

/-- In `(x + 0y)(x - y)` the zero term makes the constant term, and in `(x + 0y) - (x - y)` the
term `x` stays with the coefficient zero. -/
theorem stored_arithmetic_zero_terms :
    let R : PolyRing := ⟨.integer, ['x', 'y'], by simp, by simp, by simp [alphabet]⟩
    let a : Poly R := ⟨[⟨(1 : Int), [1, 0]⟩, ⟨(0 : Int), [0, 1]⟩]⟩
    let b : Poly R := ⟨[⟨(1 : Int), [1, 0]⟩, ⟨(-1 : Int), [0, 1]⟩]⟩
    R.domain ≠ .real ∧ a.WellFormed ∧ b.WellFormed ∧
      ∃ d t : Poly R, a.minus (.poly R b) = .ok d ∧ a.times (.poly R b) = .ok t ∧
        [1, 0] ∈ d.keys ∧ d.coeffAt [1, 0] = (0 : Int) ∧
        [0, 0] ∈ t.keys ∧ t.coeffAt [0, 0] = (0 : Int) ∧ t.coeffAt [1, 1] = (-1 : Int) := by
  intro R a b
  have hexact : R.domain ≠ .real := by decide
  have ha : a.WellFormed := ⟨by unfold Ordered; decide, by decide⟩
  have hb : b.WellFormed := ⟨by unfold Ordered; decide, by decide⟩
  obtain ⟨_, d, t, -, hd, ht, -, -, -, hstored⟩ := stored_arithmetic hexact ha hb
  obtain ⟨-, -, hkey, hcoeff, -⟩ := hstored [1, 0]
  obtain ⟨-, -, -, -, hkey', hcoeff'⟩ := hstored [0, 0]
  obtain ⟨-, -, -, -, -, hcoeff''⟩ := hstored [1, 1]
  refine ⟨hexact, ha, hb, d, t, hd, ht, hkey.2 (.inl (by decide)), hcoeff,
    hkey'.2 (.inr ⟨rfl, nofun, nofun, .inl ⟨_, List.mem_cons_of_mem _ List.mem_cons_self, rfl⟩⟩),
    hcoeff', hcoeff''⟩

end Poly
end Multipoly
