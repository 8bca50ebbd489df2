import Multipoly.Proofs.Meaning
import Multipoly.Proofs.StoredTerms

/-!
# Merges one after the other

A merge of one term changes the stored coefficient at its powers and no other. It joins the term
that is stored there or makes a new one, and a subtracted term is made with the negated coefficient,
so different orders of the same merges take different ways. Strictly ordered terms are determined by
their powers and coefficients, so all ways end in the same list, zero terms included.

Results:
* `Poly.coeffAt_merge_self`, `Poly.coeffAt_merge_of_ne`: what one merge changes;
* `Poly.Ordered.eq_of_coeffAt`: strictly ordered terms are determined by powers and coefficients;
* `Poly.coeffAt_mergeAll`, `Poly.mem_keys_mergeAll`: a sequence of merges;
* `Poly.mergeAll_perm`: the order of the merges does not matter;
* `Poly.merge_steps_commute`: the same of the updates of the program and of its constructor.
-/
namespace Multipoly

variable {R : PolyRing}

namespace Poly

/-! ## One merge -/

theorem coeffAt_cons (m : Monomial R) (ms : List (Monomial R)) (v : Powers) :
    coeffAt ⟨m :: ms⟩ v = if m.powers = v then m.coeff else coeffAt ⟨ms⟩ v := by
  by_cases hv : m.powers = v
  · rw [coeffAt, List.find?_cons_of_pos (by simpa using hv), if_pos hv]
    rfl
  · rw [coeffAt, List.find?_cons_of_neg (by simpa using hv), if_neg hv]
    rfl

/-- Terms that are listed after `u` do not have these powers. -/
theorem notMem_keys_of_order {u : Powers} {ms : List (Monomial R)}
    (hms : ∀ m ∈ ms, u.order m.powers = .lt) : u ∉ keys ⟨ms⟩ := by
  intro hmem
  obtain ⟨m, hm, rfl⟩ := List.mem_map.1 hmem
  exact Powers.order_lt_irrefl _ (hms m hm)

section
variable {join : R.Carrier → R.Carrier} {fresh : R.Carrier} {u : Powers}

/-- A merge at `u` changes no other coefficient. -/
theorem coeffAt_merge_of_ne {v : Powers} (hv : v ≠ u) (ms : List (Monomial R)) :
    coeffAt ⟨merge join fresh u ms⟩ v = coeffAt ⟨ms⟩ v := by
  induction ms with
  | nil => rw [merge, coeffAt_cons, if_neg hv.symm]
  | cons m ms ih =>
    rw [merge]
    split
    · rw [coeffAt_cons, if_neg hv.symm]
    · rename_i heq
      have hne : m.powers ≠ v := Powers.order_eq_iff.1 heq ▸ hv.symm
      rw [coeffAt_cons, coeffAt_cons, if_neg hne, if_neg hne]
    · rw [coeffAt_cons, coeffAt_cons, ih]

/-- A merge at `u` changes the coefficient there, where none is zero. -/
theorem coeffAt_merge_self (hfresh : join 0 = fresh) {ms : List (Monomial R)}
    (hms : ms.Pairwise fun m n => m.order n = .lt) :
    coeffAt ⟨merge join fresh u ms⟩ u = join (coeffAt ⟨ms⟩ u) := by
  induction ms with
  | nil => rw [merge, coeffAt_cons, if_pos rfl]; exact hfresh.symm
  | cons m ms ih =>
    obtain ⟨hhead, htail⟩ := List.pairwise_cons.1 hms
    rw [merge]
    split
    · rename_i hlt
      have hnotMem : u ∉ keys ⟨m :: ms⟩ := notMem_keys_of_order (List.forall_mem_cons.2
        ⟨hlt, fun n hn => Powers.order_lt_trans hlt (hhead n hn)⟩)
      rw [coeffAt_cons, if_pos rfl, coeffAt_of_notMem hnotMem, hfresh]
    · rename_i heq
      obtain rfl := Powers.order_eq_iff.1 heq
      rw [coeffAt_cons, coeffAt_cons, if_pos rfl, if_pos rfl]
    · rename_i hgt
      have hne : m.powers ≠ u := by
        rintro rfl
        rw [Powers.order_self] at hgt
        cases hgt
      rw [coeffAt_cons, coeffAt_cons, if_neg hne, if_neg hne, ih htail]

end

/-- Strictly ordered polynomials are determined by their powers and coefficients. -/
theorem Ordered.eq_of_coeffAt {p q : Poly R} (hp : p.Ordered) (hq : q.Ordered)
    (hkeys : ∀ v, v ∈ p.keys ↔ v ∈ q.keys) (hcoeff : ∀ v, p.coeffAt v = q.coeffAt v) : p = q := by
  have hmem : ∀ {r s : Poly R}, r.Ordered → s.Ordered → (∀ v, v ∈ r.keys → v ∈ s.keys) →
      (∀ v, r.coeffAt v = s.coeffAt v) → ∀ m ∈ r.terms, m ∈ s.terms := by
    intro r s hr hs hkeys hcoeff m hm
    obtain ⟨n, hn, hpowers⟩ := mem_keys.1 (hkeys _ (mem_keys.2 ⟨m, hm, rfl⟩))
    have heq : m.coeff = n.coeff := by
      rw [← coeffAt_of_mem hr hm, hcoeff, hpowers, coeffAt_of_mem hs hn]
    obtain ⟨c, u⟩ := m
    obtain ⟨c', u'⟩ := n
    obtain rfl : u = u' := hpowers
    obtain rfl : c = c' := heq
    exact hn
  refine hp.ext hq fun m => ⟨hmem hp hq (fun v => (hkeys v).1) hcoeff m, ?_⟩
  exact hmem hq hp (fun v => (hkeys v).2) (fun v => (hcoeff v).symm) m

end Poly

/-! ## Sequences of merges -/

theorem Sign.mem_keys_merge (s : Sign) (p : Poly R) (m : Monomial R) (v : Powers) :
    v ∈ (s.merge p m).keys ↔ v ∈ p.keys ∨ v = m.powers := by
  cases s with
  | plus => exact Poly.mem_keys_addTerm p m v
  | minus => exact Poly.mem_keys_subTerm p m v

theorem Sign.ordered_merge (s : Sign) {p : Poly R} (hp : p.Ordered) (m : Monomial R) :
    (s.merge p m).Ordered := by
  cases s with
  | plus => exact Poly.pairwise_merge _ _ _ hp
  | minus => exact Poly.pairwise_merge _ _ _ hp

namespace Poly

/-- Merges terms with their signs, one after the other. -/
def mergeAll (p : Poly R) (steps : Run R) : Poly R := steps.foldl (fun p f => f.1.merge p f.2) p

/-- The sum of the coefficients that the steps of one sign name at `v`. -/
def total (s : Sign) (steps : Run R) (v : Powers) : R.Carrier :=
  ((steps.filter fun f => f.1 = s ∧ f.2.powers = v).map (·.2.coeff)).sum

theorem mem_keys_mergeAll {p : Poly R} {steps : Run R} {v : Powers} :
    v ∈ (p.mergeAll steps).keys ↔ v ∈ p.keys ∨ ∃ f ∈ steps, v = f.2.powers :=
  mem_keys_foldl (fun p (f : Sign × Monomial R) v => f.1.mem_keys_merge p f.2 v) steps p v

theorem ordered_mergeAll {p : Poly R} (hp : p.Ordered) (steps : Run R) :
    (p.mergeAll steps).Ordered :=
  List.foldlRecOn steps _ hp fun _ hq f _ => f.1.ordered_merge hq f.2

section
variable (h : R.domain ≠ .real)
include h

/-- One merge adds the coefficient with its sign, at its powers. -/
theorem toRat_coeffAt_merge {p : Poly R} (hp : p.Ordered) (s : Sign) (m : Monomial R)
    (v : Powers) :
    R.domain.toRat ((s.merge p m).coeffAt v) =
      R.domain.toRat (p.coeffAt v) + if m.powers = v then s.of (R.domain.toRat m.coeff) else 0 := by
  by_cases hv : m.powers = v
  · subst hv
    rw [if_pos rfl]
    cases s with
    | plus =>
      have hfresh : (0 : R.Carrier) + m.coeff = m.coeff := by
        rw [← Domain.toRat_inj h, Domain.toRat_add h, Domain.toRat_zero h, zero_add]
      rw [Sign.merge, addTerm, coeffAt_merge_self hfresh hp, Domain.toRat_add h]
      rfl
    | minus =>
      have hfresh : (0 : R.Carrier) - m.coeff = Coefficient.negate m.coeff := rfl
      rw [Sign.merge, subTerm, coeffAt_merge_self hfresh hp, Domain.toRat_sub h, sub_eq_add_neg]
      rfl
  · rw [if_neg hv, add_zero]
    cases s with
    | plus => rw [Sign.merge, addTerm, coeffAt_merge_of_ne (Ne.symm hv)]
    | minus => rw [Sign.merge, subTerm, coeffAt_merge_of_ne (Ne.symm hv)]

theorem toRat_coeffAt_mergeAll {p : Poly R} (hp : p.Ordered) (steps : Run R) (v : Powers) :
    R.domain.toRat ((p.mergeAll steps).coeffAt v) = R.domain.toRat (p.coeffAt v) +
      (steps.map fun f => if f.2.powers = v then f.1.of (R.domain.toRat f.2.coeff) else 0).sum := by
  induction steps generalizing p with
  | nil => exact (add_zero _).symm
  | cons f steps ih =>
    rw [mergeAll, List.foldl_cons, ← mergeAll, ih (f.1.ordered_merge hp f.2),
      toRat_coeffAt_merge h hp, List.map_cons, List.sum_cons, add_assoc]

theorem toRat_total_cons (s : Sign) (f : Sign × Monomial R) (steps : Run R) (v : Powers) :
    R.domain.toRat (total s (f :: steps) v) =
      (if f.1 = s ∧ f.2.powers = v then R.domain.toRat f.2.coeff else 0) +
        R.domain.toRat (total s steps v) := by
  by_cases hf : f.1 = s ∧ f.2.powers = v
  · rw [total, List.filter_cons_of_pos (by simpa using hf), if_pos hf, List.map_cons,
      List.sum_cons, Domain.toRat_add h]
    rfl
  · rw [total, List.filter_cons_of_neg (by simpa using hf), if_neg hf, zero_add]
    rfl

theorem toRat_total_sub_total (steps : Run R) (v : Powers) :
    R.domain.toRat (total .plus steps v) - R.domain.toRat (total .minus steps v) =
      (steps.map fun f => if f.2.powers = v then f.1.of (R.domain.toRat f.2.coeff) else 0).sum := by
  induction steps with
  | nil => exact sub_self _
  | cons f steps ih =>
    rw [toRat_total_cons h, toRat_total_cons h, List.map_cons, List.sum_cons, ← ih]
    obtain ⟨s, m⟩ := f
    by_cases hv : m.powers = v
    · cases s <;> simp [hv, Sign.of] <;> ring
    · simp [hv]

theorem coeffAt_mergeAll {p : Poly R} (hp : p.Ordered) (steps : Run R) (v : Powers) :
    (p.mergeAll steps).coeffAt v =
      p.coeffAt v + total .plus steps v - total .minus steps v := by
  rw [← Domain.toRat_inj h, toRat_coeffAt_mergeAll h hp, ← toRat_total_sub_total h,
    Domain.toRat_sub h, Domain.toRat_add h, add_sub_assoc]

theorem mergeAll_perm {p : Poly R} (hp : p.Ordered) {steps steps' : Run R}
    (hperm : steps.Perm steps') : p.mergeAll steps = p.mergeAll steps' := by
  refine (ordered_mergeAll hp steps).eq_of_coeffAt (ordered_mergeAll hp steps') (fun v => ?_)
    fun v => ?_
  · simp only [mem_keys_mergeAll, hperm.mem_iff]
  · rw [← Domain.toRat_inj h, toRat_coeffAt_mergeAll h hp, toRat_coeffAt_mergeAll h hp,
      (hperm.map _).sum_eq]

end

/-! ## Updates -/

end Poly

/-- The update that merges the terms of a run, one after the other. -/
def Run.update (steps : Run R) : Update R := steps.forM fun f => f.1.update f.2

theorem Run.update_apply (steps : Run R) (p : Poly R) :
    steps.update.apply p = (.ok (), p.mergeAll steps) :=
  Update.apply_forM (fun p f => f.1.update_apply f.2 p) steps p

namespace Poly

/-- The constructor adds the terms to the empty polynomial. -/
theorem ofMonomials_eq (ms : List (Monomial R)) :
    ofMonomials (ms.map fun m => ⟨R, m⟩) = .ok (empty.mergeAll (ms.map fun m => (.plus, m))) := by
  have hterms : forM (ms.map fun m => (⟨R, m⟩ : (S : PolyRing) × Monomial S))
      (fun n => (addMonomial n.2 : Update R)) = forM ms fun m => addMonomial m :=
    List.forM_map
  have hsteps : Run.update (ms.map fun m => (Sign.plus, m)) = forM ms fun m => addMonomial m :=
    List.forM_map
  calc ofMonomials (ms.map fun m => ⟨R, m⟩)
    _ = (Run.update (ms.map fun m => (Sign.plus, m))).on empty :=
        congrArg (Update.on · empty) (hterms.trans hsteps.symm)
    _ = .ok (empty.mergeAll (ms.map fun m => (.plus, m))) :=
        Update.on_of_apply (Run.update_apply _ empty)

/-! ## All orders -/

/-- A sequence of updates that add or subtract terms of the ring is never refused. It stores the
powers that were stored or are named by a step, each with the coefficient that was stored plus what
is added and minus what is subtracted there. Every other order of the same steps leaves the same
list, and the constructor makes the same polynomial of terms in any order. -/
theorem merge_steps_commute (h : R.domain ≠ .real) {p : Poly R} (hp : p.Ordered) (steps : Run R) :
    ∃ q : Poly R, steps.update.apply p = (.ok (), q) ∧ q.Ordered ∧
      (∀ v : Powers, (v ∈ q.keys ↔ v ∈ p.keys ∨ ∃ f ∈ steps, v = f.2.powers) ∧
        q.coeffAt v = p.coeffAt v + total .plus steps v - total .minus steps v) ∧
      (∀ steps' : Run R, steps'.Perm steps → steps'.update.apply p = (.ok (), q)) ∧
      ∀ ms ms' : List (Monomial R), ms.Perm ms' → ∃ r : Poly R,
        ofMonomials (ms.map fun m => ⟨R, m⟩) = .ok r ∧
        ofMonomials (ms'.map fun m => ⟨R, m⟩) = .ok r := by
  refine ⟨p.mergeAll steps, steps.update_apply p, ordered_mergeAll hp steps,
    fun v => ⟨mem_keys_mergeAll, coeffAt_mergeAll h hp steps v⟩, fun steps' hperm => ?_,
    fun ms ms' hperm => ⟨_, ofMonomials_eq ms, ?_⟩⟩
  · rw [Run.update_apply, mergeAll_perm h hp hperm]
  · rw [ofMonomials_eq, mergeAll_perm h WellFormed.empty.ordered (hperm.map _).symm]

/-- The term `x` is subtracted from `2y + 0` before it is added twice, which makes it with the
coefficient minus one, or after that. -/
theorem merge_steps_commute_subtract_first :
    let R : PolyRing := ⟨.integer, ['x', 'y'], by simp, by simp, by simp [alphabet]⟩
    let p : Poly R := ⟨[⟨(2 : Int), [0, 1]⟩, ⟨(0 : Int), [0, 0]⟩]⟩
    let x : Monomial R := ⟨(1 : Int), [1, 0]⟩
    R.domain ≠ .real ∧ p.Ordered ∧ (p.subTerm x).coeffAt [1, 0] = (-1 : Int) ∧
      ∃ q : Poly R,
        (Run.update [(.minus, x), (.plus, x), (.plus, x)]).apply p = (.ok (), q) ∧
        (Run.update [(.plus, x), (.plus, x), (.minus, x)]).apply p = (.ok (), q) ∧
        [1, 0] ∈ q.keys ∧ q.coeffAt [1, 0] = (1 : Int) ∧
        [0, 0] ∈ q.keys ∧ q.coeffAt [0, 0] = (0 : Int) := by
  intro R p x
  have hexact : R.domain ≠ .real := by decide
  have hp : p.Ordered := by unfold Ordered; decide
  obtain ⟨q, hq, -, hstored, hperm, -⟩ :=
    merge_steps_commute hexact hp [(.minus, x), (.plus, x), (.plus, x)]
  obtain ⟨hkey, hcoeff⟩ := hstored [1, 0]
  obtain ⟨hkey', hcoeff'⟩ := hstored [0, 0]
  have hlast := List.perm_append_singleton (Sign.minus, x) [(.plus, x), (.plus, x)]
  exact ⟨hexact, hp, rfl, q, hq, hperm _ hlast, hkey.2 (.inr ⟨(.plus, x), by simp, rfl⟩), hcoeff,
    hkey'.2 (.inl (by decide)), hcoeff'⟩

end Poly
end Multipoly
