import Mathlib.Algebra.MvPolynomial.CommRing
import Multipoly.Poly.Eval
import Multipoly.Proofs.WellFormed

/-!
# What polynomials denote

A polynomial with exact coefficients denotes an element of the polynomial ring with rational
coefficients in the variables of its ring. The operations on term lists are the operations of that
ring, and on well-formed polynomials equality of non-zero terms is equality there. Doubles obey no
laws, so every statement leaves the real domain out.

Results:
* `Domain.toRat_inj`: exact coefficients are told apart by the rational numbers they are;
* `Poly.denote_add`, `Poly.denote_mul`, `Poly.denote_pow`, ...: the operations;
* `Poly.mem_nonzero_iff`: the non-zero terms are the non-zero coefficients of the denotation;
* `Poly.same_iff_denote_eq`: equality of polynomials is equality of what they denote.
-/
namespace Multipoly
open MvPolynomial

/-! ## Coefficients -/

namespace Domain

/-- The rational number that an exact coefficient is. -/
def toRat : (d : Domain) → d.Carrier → ℚ
  | .integer, n => (n : ℤ)
  | .rational, q => q
  | .real, _ => 0

variable {d : Domain} (h : d ≠ .real)
include h

theorem toRat_inj {a b : d.Carrier} : toRat d a = toRat d b ↔ a = b := by
  cases d with
  | integer => exact Int.cast_inj
  | rational => exact Iff.rfl
  | real => exact absurd rfl h

theorem toRat_zero : toRat d 0 = 0 := by
  cases d with
  | integer => exact Int.cast_zero
  | rational => rfl
  | real => exact absurd rfl h

theorem toRat_one : toRat d 1 = 1 := by
  cases d with
  | integer => exact Int.cast_one
  | rational => rfl
  | real => exact absurd rfl h

theorem toRat_add (a b : d.Carrier) : toRat d (a + b) = toRat d a + toRat d b := by
  cases d with
  | integer => exact Int.cast_add a b
  | rational => rfl
  | real => exact absurd rfl h

theorem toRat_sub (a b : d.Carrier) : toRat d (a - b) = toRat d a - toRat d b := by
  cases d with
  | integer => exact Int.cast_sub a b
  | rational => rfl
  | real => exact absurd rfl h

theorem toRat_mul (a b : d.Carrier) : toRat d (a * b) = toRat d a * toRat d b := by
  cases d with
  | integer => exact Int.cast_mul a b
  | rational => rfl
  | real => exact absurd rfl h

theorem toRat_negate (a : d.Carrier) : toRat d (Coefficient.negate a) = -toRat d a := by
  rw [Coefficient.negate, toRat_sub h, toRat_zero h, zero_sub]

theorem toRat_ofInt {n : Int} {k : d.Carrier} (hk : Coefficient.ofInt n = .ok k) :
    toRat d k = n := by
  cases d with
  | integer => exact congrArg Int.cast (Except.ok.inj hk).symm
  | rational => exact (Except.ok.inj hk).symm
  | real => exact absurd rfl h

theorem isZero_iff {a : d.Carrier} : Coefficient.isZero a = true ↔ toRat d a = 0 := by
  have hzero : a == 0 ↔ a = 0 := by
    cases d with
    | integer => exact beq_iff_eq
    | rational => exact beq_iff_eq
    | real => exact absurd rfl h
  rw [Coefficient.isZero, hzero, ← toRat_inj h, toRat_zero h]

theorem sameNumber_iff {a b : d.Carrier} : sameNumber d d a b = true ↔ a = b := by
  cases d with
  | integer => exact beq_iff_eq
  | rational => exact beq_iff_eq
  | real => exact absurd rfl h

end Domain

/-! ## Power vectors -/

namespace Powers

/-- The powers as an exponent of `n` variables. -/
noncomputable def exponent (n : Nat) (u : Powers) : Fin n →₀ ℕ :=
  Finsupp.equivFunOnFinite.symm fun i => u.getD i 0

theorem exponent_apply {n : Nat} (u : Powers) (i : Fin n) : exponent n u i = u.getD i 0 := rfl

theorem exponent_inj {n : Nat} {u v : Powers} (hu : u.length = n) (hv : v.length = n) :
    exponent n u = exponent n v ↔ u = v := by
  constructor
  · intro h
    refine List.ext_getElem (hu.trans hv.symm) fun i hi hi' => ?_
    have hi'' := DFunLike.congr_fun h ⟨i, hu ▸ hi⟩
    rw [exponent_apply, exponent_apply] at hi''
    simpa [hi, hi'] using hi''
  · intro heq
    subst heq
    rfl

theorem exponent_zeros (n : Nat) : exponent n (List.replicate n 0) = 0 := by
  ext i
  rw [exponent_apply]
  simp

theorem exponent_zipWith {n : Nat} {u v : Powers} (hu : u.length = n) (hv : v.length = n) :
    exponent n (List.zipWith (· + ·) u v) = exponent n u + exponent n v := by
  ext i
  have hi : (i : Nat) < u.length := hu ▸ i.isLt
  have hi' : (i : Nat) < v.length := hv ▸ i.isLt
  rw [Finsupp.add_apply, exponent_apply, exponent_apply, exponent_apply]
  simp [hi, hi']

end Powers

/-! ## Terms -/

variable {R : PolyRing}

/-- The element of the polynomial ring that a term is. -/
noncomputable def Monomial.denote (m : Monomial R) : MvPolynomial (Fin R.arity) ℚ :=
  monomial (Powers.exponent R.arity m.powers) (R.domain.toRat m.coeff)

/-- The element of the polynomial ring that a polynomial is. -/
noncomputable def Poly.denote (p : Poly R) : MvPolynomial (Fin R.arity) ℚ :=
  (p.terms.map Monomial.denote).sum

namespace Monomial

theorem denote_constant (k : R.Carrier) :
    (Monomial.constant k).denote = C (R.domain.toRat k) := by
  rw [denote, Monomial.constant, PolyRing.noPowers, Powers.exponent_zeros, monomial_zero']

/-- The product with its powers added up, also where it is zero. -/
def product (m n : Monomial R) : Monomial R :=
  ⟨m.coeff * n.coeff, List.zipWith (· + ·) m.powers n.powers⟩

theorem mul_eq_product (m n : Monomial R) :
    m.mul n =
      if Coefficient.isZero (m.coeff * n.coeff) = true then constant (m.coeff * n.coeff)
      else m.product n := rfl

variable (h : R.domain ≠ .real)
include h

theorem denote_eq_zero {m : Monomial R} (hm : m.isZero = true) : m.denote = 0 := by
  rw [denote, (Domain.isZero_iff h).1 hm, monomial_zero]

theorem denote_scale (m : Monomial R) (k : R.Carrier) :
    (m.scale k).denote = m.denote * C (R.domain.toRat k) := by
  rw [denote, denote, scale, Domain.toRat_mul h, mul_comm _ (C _), C_mul_monomial, mul_comm]

theorem denote_product {m n : Monomial R} (hm : m.Fits) (hn : n.Fits) :
    (m.product n).denote = m.denote * n.denote := by
  rw [denote, denote, denote, monomial_mul, product, Domain.toRat_mul h,
    Powers.exponent_zipWith hm hn]

theorem denote_mul {m n : Monomial R} (hm : m.Fits) (hn : n.Fits) :
    (m.mul n).denote = m.denote * n.denote := by
  rw [← denote_product h hm hn, mul_eq_product]
  by_cases hzero : Coefficient.isZero (m.coeff * n.coeff) = true
  · rw [if_pos hzero, denote_constant, denote, product, (Domain.isZero_iff h).1 hzero,
      monomial_zero, C_0]
  · rw [if_neg hzero]

end Monomial

/-! ## Operations -/

namespace Poly

theorem denote_empty : (empty : Poly R).denote = 0 := rfl

theorem denote_cons (m : Monomial R) (ms : List (Monomial R)) :
    denote ⟨m :: ms⟩ = m.denote + denote ⟨ms⟩ := List.sum_cons

theorem denote_singleton (m : Monomial R) : denote ⟨[m]⟩ = m.denote := by
  rw [denote_cons]
  exact add_zero _

/-- A merge adds a term, whatever it does with the stored coefficient. -/
theorem denote_merge {join : R.Carrier → R.Carrier} {fresh : R.Carrier} {u : Powers}
    (hjoin : ∀ c, R.domain.toRat (join c) = R.domain.toRat c + R.domain.toRat fresh)
    (ms : List (Monomial R)) :
    denote ⟨merge join fresh u ms⟩ = denote ⟨ms⟩ + Monomial.denote ⟨fresh, u⟩ := by
  induction ms with
  | nil => exact add_comm _ _
  | cons m ms ih =>
    rw [merge]
    split
    · rw [denote_cons, add_comm]
    · rename_i heq
      obtain rfl := Powers.order_eq_iff.1 heq
      rw [denote_cons, denote_cons, Monomial.denote, Monomial.denote, Monomial.denote, hjoin,
        map_add]
      exact add_right_comm _ _ _
    · rw [denote_cons, denote_cons, ih, add_assoc]

theorem denote_foldl {α : Type} {f : Poly R → α → Poly R} {g : α → MvPolynomial (Fin R.arity) ℚ}
    {xs : List α} (hf : ∀ q, ∀ x ∈ xs, (f q x).denote = q.denote + g x) (p : Poly R) :
    (xs.foldl f p).denote = p.denote + (xs.map g).sum := by
  induction xs generalizing p with
  | nil => exact (add_zero _).symm
  | cons x xs ih =>
    rw [List.foldl_cons, ih (fun q y hy => hf q y (List.mem_cons_of_mem _ hy)),
      hf p x List.mem_cons_self, List.map_cons, List.sum_cons, add_assoc]

section
variable (h : R.domain ≠ .real)
include h

theorem denote_addTerm (p : Poly R) (m : Monomial R) :
    (p.addTerm m).denote = p.denote + m.denote :=
  denote_merge (fun c => Domain.toRat_add h c m.coeff) p.terms

theorem denote_subTerm (p : Poly R) (m : Monomial R) :
    (p.subTerm m).denote = p.denote - m.denote := by
  have hfresh := Domain.toRat_negate h m.coeff
  have hjoin : ∀ c, R.domain.toRat (c - m.coeff) =
      R.domain.toRat c + R.domain.toRat (Coefficient.negate m.coeff) := by
    intro c
    rw [hfresh, Domain.toRat_sub h, sub_eq_add_neg]
  rw [subTerm, denote_merge hjoin, Monomial.denote, hfresh, map_neg, sub_eq_add_neg]
  rfl

theorem denote_one : (one : Poly R).denote = 1 := by
  rw [one, constant, denote_singleton, Monomial.denote_constant, Domain.toRat_one h, C_1]

theorem denote_add (p q : Poly R) : (p.add q).denote = p.denote + q.denote :=
  denote_foldl (fun r m _ => denote_addTerm h r m) p

theorem denote_sub (p q : Poly R) : (p.sub q).denote = p.denote - q.denote := by
  have hf : ∀ r : Poly R, ∀ m ∈ q.terms, (r.subTerm m).denote = r.denote + -m.denote := by
    intro r m _
    rw [denote_subTerm h, sub_eq_add_neg]
  rw [sub, denote_foldl hf, sub_eq_add_neg, denote, denote, List.sum_neg, List.map_map]
  rfl

theorem denote_scale (p : Poly R) (k : R.Carrier) :
    (p.scale k).denote = p.denote * C (R.domain.toRat k) := by
  rw [denote, denote, scale, List.map_map, ← List.sum_map_mul_right]
  exact congrArg List.sum (List.map_congr_left fun m _ => Monomial.denote_scale h m k)

theorem denote_neg (p : Poly R) : p.neg.denote = -p.denote := by
  rw [neg, denote_scale h, Domain.toRat_negate h, Domain.toRat_one h, C_neg, C_1, mul_neg_one]

theorem denote_mul {p q : Poly R} (hp : p.WellFormed) (hq : q.WellFormed) :
    (p.mul q).denote = p.denote * q.denote := by
  have hrow : ∀ r : Poly R, ∀ m ∈ p.terms,
      (q.terms.foldl (fun product n => product.addTerm (m.mul n)) r).denote =
        r.denote + m.denote * q.denote := by
    intro r m hm
    have hcell : ∀ s : Poly R, ∀ n ∈ q.terms,
        (s.addTerm (m.mul n)).denote = s.denote + m.denote * n.denote := by
      intro s n hn
      rw [denote_addTerm h, Monomial.denote_mul h (hp.fits m hm) (hq.fits n hn)]
    rw [denote_foldl hcell, List.sum_map_mul_left]
    rfl
  rw [mul, denote_foldl hrow, denote_empty, zero_add, List.sum_map_mul_right]
  rfl

theorem denote_pow {p : Poly R} (hp : p.WellFormed) (n : Nat) :
    (p.pow n).denote = p.denote ^ n := by
  cases n with
  | zero => rw [pow_zero]; exact denote_one h
  | succ n =>
    have hrepeat : (Nat.repeat (·.mul p) n p).WellFormed ∧
        (Nat.repeat (·.mul p) n p).denote = p.denote ^ (n + 1) := by
      induction n with
      | zero => exact ⟨hp, (pow_one _).symm⟩
      | succ n ih => exact ⟨ih.1.mul hp, by rw [Nat.repeat, denote_mul h ih.1 hp, ih.2, ← pow_succ]⟩
    exact hrepeat.2

end

/-! ## Equality -/

/-- The coefficient of one term. -/
theorem coeff_denote_monomial {m : Monomial R} {u : Powers} (hm : m.Fits)
    (hu : u.length = R.arity) : coeff (Powers.exponent R.arity u) m.denote =
      if m.powers = u then R.domain.toRat m.coeff else 0 := by
  rw [Monomial.denote, coeff_monomial]
  exact if_congr (Powers.exponent_inj hm hu) rfl rfl

/-- Powers that no term has have the coefficient zero. -/
theorem coeff_of_notMem {u : Powers} {ms : List (Monomial R)} (hms : ∀ m ∈ ms, m.Fits)
    (hu : u.length = R.arity) (hmem : u ∉ ms.map (·.powers)) :
    coeff (Powers.exponent R.arity u) (denote ⟨ms⟩) = 0 := by
  induction ms with
  | nil => exact coeff_zero _
  | cons m ms ih =>
    rw [List.map_cons, List.mem_cons, not_or] at hmem
    rw [denote_cons, coeff_add, coeff_denote_monomial (hms m List.mem_cons_self) hu,
      if_neg (Ne.symm hmem.1), zero_add]
    exact ih (fun n hn => hms n (List.mem_cons_of_mem _ hn)) hmem.2

/-- The powers of a term have its coefficient when no other term has them. -/
theorem coeff_of_mem {m : Monomial R} {ms : List (Monomial R)} (hms : ∀ m ∈ ms, m.Fits)
    (hnodup : (ms.map (·.powers)).Nodup) (hm : m ∈ ms) :
    coeff (Powers.exponent R.arity m.powers) (denote ⟨ms⟩) = R.domain.toRat m.coeff := by
  induction ms with
  | nil => cases hm
  | cons n ms ih =>
    have hrest : ∀ n ∈ ms, n.Fits := fun n hn => hms n (List.mem_cons_of_mem _ hn)
    obtain ⟨hn, hnodup⟩ := List.nodup_cons.1 hnodup
    rw [denote_cons, coeff_add, coeff_denote_monomial (hms n List.mem_cons_self) (hms m hm)]
    rcases List.mem_cons.1 hm with rfl | hm
    · rw [if_pos rfl, coeff_of_notMem hrest (hms m List.mem_cons_self) hn, add_zero]
    · have hne : n.powers ≠ m.powers := fun heq => hn (List.mem_map.2 ⟨m, hm, heq.symm⟩)
      rw [if_neg hne, zero_add]
      exact ih hrest hnodup hm

section
variable (h : R.domain ≠ .real)
include h

/-- The non-zero terms of a well-formed polynomial are the non-zero coefficients of what it
denotes. -/
theorem mem_nonzero_iff {p : Poly R} (hp : p.WellFormed) {m : Monomial R} :
    m ∈ p.nonzero ↔ m.Fits ∧ R.domain.toRat m.coeff ≠ 0 ∧
      coeff (Powers.exponent R.arity m.powers) p.denote = R.domain.toRat m.coeff := by
  have hzero : (!m.isZero) = true ↔ R.domain.toRat m.coeff ≠ 0 := by
    rw [Bool.not_eq_true', Monomial.isZero, ← Bool.not_eq_true, Domain.isZero_iff h]
  rw [nonzero, List.mem_filter, hzero]
  constructor
  · intro hmem
    obtain ⟨hm, hne⟩ := hmem
    exact ⟨hp.fits m hm, hne, coeff_of_mem hp.fits hp.ordered.nodup hm⟩
  · intro hdenote
    obtain ⟨hfits, hne, hcoeff⟩ := hdenote
    refine ⟨?_, hne⟩
    by_cases hmem : m.powers ∈ p.terms.map (·.powers)
    · -- The stored term with these powers has the same coefficient.
      obtain ⟨n, hn, hpowers⟩ := List.mem_map.1 hmem
      have hcoeff' := coeff_of_mem hp.fits hp.ordered.nodup hn
      rw [hpowers, hcoeff, Domain.toRat_inj h] at hcoeff'
      obtain ⟨c, u⟩ := m
      obtain ⟨c', u'⟩ := n
      obtain rfl : u' = u := hpowers
      obtain rfl : c = c' := hcoeff'
      exact hn
    · rw [coeff_of_notMem hp.fits hfits hmem] at hcoeff
      exact absurd hcoeff.symm hne

theorem denote_nonzero (p : Poly R) : denote ⟨p.nonzero⟩ = p.denote := by
  obtain ⟨ms⟩ := p
  induction ms with
  | nil => rfl
  | cons m ms ih =>
    have hms : denote ⟨ms.filter (!·.isZero)⟩ = denote ⟨ms⟩ := ih
    show denote ⟨(m :: ms).filter (!·.isZero)⟩ = _
    cases hm : m.isZero with
    | true =>
      rw [List.filter_cons_of_neg (by rw [hm]; decide), hms, denote_cons,
        Monomial.denote_eq_zero h hm, zero_add]
    | false => rw [List.filter_cons_of_pos (by rw [hm]; rfl), denote_cons, denote_cons, hms]

theorem sameTerms_iff {ms ns : List (Monomial R)} : same.sameTerms ms ns = true ↔ ms = ns := by
  constructor
  · intro hsame
    induction ms generalizing ns with
    | nil =>
      cases ns with
      | nil => rfl
      | cons n ns => cases hsame
    | cons m ms ih =>
      cases ns with
      | nil => cases hsame
      | cons n ns =>
        rw [same.sameTerms, Bool.and_eq_true, Monomial.same, Bool.and_eq_true,
          Domain.sameNumber_iff h, beq_iff_eq] at hsame
        obtain ⟨⟨hpowers, hcoeff⟩, hrest⟩ := hsame
        obtain ⟨c, u⟩ := m
        obtain ⟨c', u'⟩ := n
        obtain rfl : u = u' := hpowers
        obtain rfl : c = c' := hcoeff
        rw [ih hrest]
  · intro heq
    subst heq
    exact sameTerms_self h ms

/-- Polynomials with the same non-zero coefficients have the same non-zero terms. -/
theorem nonzero_eq_of_denote_eq {p q : Poly R} (hp : p.WellFormed) (hq : q.WellFormed)
    (heq : p.denote = q.denote) : p.nonzero = q.nonzero := by
  refine congrArg terms (hp.prune.ordered.ext hq.prune.ordered fun m => ?_)
  exact (mem_nonzero_iff h hp).trans (heq ▸ (mem_nonzero_iff h hq).symm)

/-- Polynomials of one ring are equal exactly when they have the same non-zero terms. -/
theorem same_iff_nonzero_eq {p q : Poly R} : p.same q = true ↔ p.nonzero = q.nonzero := by
  rw [same, Bool.and_eq_true, sameTerms_iff h]
  exact and_iff_right (beq_self_eq_true R)

/-- Well-formed polynomials of one ring are equal exactly when they denote the same. -/
theorem same_iff_denote_eq {p q : Poly R} (hp : p.WellFormed) (hq : q.WellFormed) :
    p.same q = true ↔ p.denote = q.denote := by
  rw [same_iff_nonzero_eq h]
  constructor
  · intro hnonzero
    rw [← denote_nonzero h p, ← denote_nonzero h q, hnonzero]
  · exact nonzero_eq_of_denote_eq h hp hq

end
end Poly

end Multipoly
