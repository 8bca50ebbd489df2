import Multipoly.Poly.Derivative
import Multipoly.Poly.Operand
import Multipoly.Proofs.TermOrder

/-!
# Well-formed polynomials

The invariant of the stored terms: they are strictly ordered, and each has one power for every
variable of the ring. Every operation on polynomials restores it. All of them change the list by
`merge`, by mapping coefficients or by dropping terms, so the invariant is proved once for each of
these three ways.

Results:
* `Poly.WellFormed.addTerm`, `Poly.WellFormed.subTerm`: merging one term keeps the invariant;
* `Poly.WellFormed.mul`, `Poly.WellFormed.pow`, `Poly.WellFormed.derivative`, ...: so does each
  operation;
* `Monomial.granted_iff_fits`: the terms that the constructor grants are those that fit.
-/
namespace Multipoly
variable {R S : PolyRing}

/-! ## Terms -/

namespace Monomial

/-- A term that the constructor grants. -/
def Granted (m : Monomial R) : Prop := ∃ powers : List Int, ofPowers m.coeff powers = .ok m

theorem Fits.ofPowers {m : Monomial R} (h : m.Fits) :
    Monomial.ofPowers m.coeff (m.powers.map Int.ofNat) = .ok m := by
  have hfits : m.powers.length = R.arity := h
  have hnone : (m.powers.map Int.ofNat).find? (· < 0) = none := by
    rw [List.find?_eq_none]
    intro p hp
    obtain ⟨n, -, rfl⟩ := List.mem_map.1 hp
    simp
  have hpowers : (m.powers.map Int.ofNat).map Int.toNat = m.powers := by
    rw [List.map_map]
    exact List.map_id'' (fun n => Int.toNat_natCast n) m.powers
  unfold Monomial.ofPowers
  rw [if_neg (by rw [List.length_map]; omega), hnone, hpowers, List.length_map, hfits]
  simp

/-- The constructor grants exactly the terms with one power for each variable. -/
theorem granted_iff_fits {m : Monomial R} : m.Granted ↔ m.Fits := by
  constructor
  · intro hgranted
    obtain ⟨powers, h⟩ := hgranted
    unfold ofPowers at h
    by_cases hlen : R.arity < powers.length
    · rw [if_pos hlen] at h
      cases h
    · rw [if_neg hlen] at h
      split at h
      · cases h
      · simp only [Except.ok.injEq] at h
        rw [Fits, ← h]
        simp only [List.length_append, List.length_map, List.length_replicate]
        omega
  · intro h
    exact ⟨_, h.ofPowers⟩

theorem length_noPowers (R : PolyRing) : R.noPowers.length = R.arity := List.length_replicate

theorem Fits.constant (k : R.Carrier) : (Monomial.constant k).Fits := length_noPowers R

theorem Fits.mul {m n : Monomial R} (hm : m.Fits) (hn : n.Fits) : (m.mul n).Fits := by
  have hm' : m.powers.length = R.arity := hm
  have hn' : n.powers.length = R.arity := hn
  unfold Monomial.mul
  dsimp only
  split
  · exact Fits.constant _
  · show (List.zipWith (· + ·) m.powers n.powers).length = R.arity
    rw [List.length_zipWith, hm', hn', Nat.min_self]

theorem Fits.cast {m : Monomial S} (hm : m.Fits) (h : S = R) : (m.cast h).Fits := by
  subst h
  exact hm

theorem Fits.mulAny {m : Monomial R} {n : Monomial S} {mn : Monomial R} (hm : m.Fits)
    (hn : n.Fits) (h : m.mulAny n = .ok mn) : mn.Fits := by
  unfold Monomial.mulAny at h
  by_cases hS : S = R
  · rw [dif_pos hS] at h
    cases h
    exact hm.mul (hn.cast hS)
  · rw [dif_neg hS] at h
    cases h

theorem Fits.ofVariable {name : String} {m : Monomial R} (h : ofVariable name = .ok m) :
    m.Fits := by
  unfold Monomial.ofVariable at h
  cases hs : R.slot name with
  | error e => rw [hs] at h; cases h
  | ok slot =>
    rw [hs] at h
    cases h
    show (R.noPowers.set slot 1).length = R.arity
    rw [List.length_set, length_noPowers]

end Monomial

namespace Poly

/-- Strictly ordered terms with one power for each variable. -/
structure WellFormed (p : Poly R) : Prop where
  ordered : p.Ordered
  fits : ∀ m ∈ p.terms, m.Fits

/-- No two terms have equal powers. -/
theorem Ordered.nodup {p : Poly R} (h : p.Ordered) : (p.terms.map (·.powers)).Nodup := by
  rw [List.Nodup, List.pairwise_map]
  refine h.imp ?_
  intro m n hmn heq
  rw [Monomial.order, heq] at hmn
  exact Powers.order_lt_irrefl _ hmn

/-- Strictly ordered polynomials with the same terms are equal. -/
theorem Ordered.ext {p q : Poly R} (hp : p.Ordered) (hq : q.Ordered)
    (hterms : ∀ m, m ∈ p.terms ↔ m ∈ q.terms) : p = q := by
  have hnodup : ∀ {r : Poly R}, r.Ordered → r.terms.Nodup := fun hr =>
    (List.pairwise_map.1 hr.nodup).imp fun hne heq => hne (congrArg Monomial.powers heq)
  have hperm : p.terms.Perm q.terms :=
    (List.perm_ext_iff_of_nodup (hnodup hp) (hnodup hq)).2 hterms
  refine congrArg Poly.mk (hperm.eq_of_pairwise ?_ hp hq)
  intro m n _ _ hmn hnm
  exact absurd (Powers.order_lt_trans hmn hnm) (Powers.order_lt_irrefl _)

/-! ## Merging -/

section
variable (join : R.Carrier → R.Carrier) (fresh : R.Carrier) (u : Powers)

/-- The powers after a merge are those before it and the merged ones. -/
theorem mem_powers_merge (v : Powers) (ms : List (Monomial R)) :
    v ∈ (merge join fresh u ms).map (·.powers) ↔ v = u ∨ v ∈ ms.map (·.powers) := by
  induction ms with
  | nil => simp [merge]
  | cons m ms ih =>
    unfold merge
    split
    · simp
    · rename_i h
      simp [Powers.order_eq_iff.1 h]
    · simp only [List.map_cons, List.mem_cons, ih]
      exact or_left_comm

/-- A merge keeps strictly ordered terms strictly ordered. -/
theorem pairwise_merge {ms : List (Monomial R)}
    (h : ms.Pairwise fun m n => m.order n = .lt) :
    (merge join fresh u ms).Pairwise fun m n => m.order n = .lt := by
  induction ms with
  | nil => simp [merge]
  | cons m ms ih =>
    obtain ⟨hhead, htail⟩ := List.pairwise_cons.1 h
    unfold merge
    split
    · rename_i hu
      refine List.pairwise_cons.2 ⟨?_, h⟩
      intro n hn
      rcases List.mem_cons.1 hn with rfl | hn
      · exact hu
      · exact Powers.order_lt_trans hu (hhead n hn)
    · exact List.pairwise_cons.2 ⟨hhead, htail⟩
    · rename_i hu
      refine List.pairwise_cons.2 ⟨?_, ih htail⟩
      intro n hn
      rcases (mem_powers_merge join fresh u n.powers ms).1 (List.mem_map_of_mem hn) with hv | hv
      · rw [Monomial.order, hv]
        exact Powers.order_gt_iff.1 hu
      · obtain ⟨n', hn', heq⟩ := List.mem_map.1 hv
        rw [Monomial.order, ← heq]
        exact hhead n' hn'

variable {join fresh u}

theorem WellFormed.merge {ms : List (Monomial R)} (h : WellFormed ⟨ms⟩) (hu : u.length = R.arity) :
    WellFormed ⟨merge join fresh u ms⟩ := by
  refine ⟨pairwise_merge join fresh u h.ordered, ?_⟩
  intro n hn
  rcases (mem_powers_merge join fresh u n.powers ms).1 (List.mem_map_of_mem hn) with hv | hv
  · rw [Monomial.Fits, hv, hu]
  · obtain ⟨n', hn', heq⟩ := List.mem_map.1 hv
    rw [Monomial.Fits, ← heq]
    exact h.fits n' hn'

end

/-- What every granted step keeps holds after all of them. -/
theorem foldlM_keeps {α ε : Type} {I : Poly R → Prop} {f : Poly R → α → Except ε (Poly R)}
    {xs : List α} {p q : Poly R} (hf : ∀ p, I p → ∀ x ∈ xs, ∀ p', f p x = .ok p' → I p')
    (h : I p) (hq : xs.foldlM f p = .ok q) : I q := by
  induction xs generalizing p with
  | nil => cases hq; exact h
  | cons x xs ih =>
    rw [List.foldlM_cons] at hq
    cases hx : f p x with
    | error e => rw [hx] at hq; cases hq
    | ok p' =>
      rw [hx] at hq
      refine ih (fun p hp y hy => hf p hp y (List.mem_cons_of_mem _ hy)) ?_ hq
      exact hf p h x List.mem_cons_self p' hx

namespace WellFormed
variable {p q : Poly R} {m : Monomial R}

theorem addTerm (h : p.WellFormed) (hm : m.Fits) : (p.addTerm m).WellFormed := h.merge hm

theorem subTerm (h : p.WellFormed) (hm : m.Fits) : (p.subTerm m).WellFormed := h.merge hm

/-- Merging terms one after the other keeps the invariant. -/
theorem foldl {α : Type} {f : Poly R → α → Poly R} {xs : List α}
    (hf : ∀ p : Poly R, p.WellFormed → ∀ x ∈ xs, (f p x).WellFormed) (h : p.WellFormed) :
    (xs.foldl f p).WellFormed := by
  induction xs generalizing p with
  | nil => exact h
  | cons x xs ih =>
    refine ih (fun p hp y hy => hf p hp y (List.mem_cons_of_mem _ hy)) ?_
    exact hf p h x List.mem_cons_self

/-- The same for merges that may be refused. -/
theorem foldlM {α ε : Type} {f : Poly R → α → Except ε (Poly R)} {xs : List α}
    (hf : ∀ p : Poly R, p.WellFormed → ∀ x ∈ xs, ∀ p', f p x = .ok p' → p'.WellFormed)
    (h : p.WellFormed) (hq : xs.foldlM f p = .ok q) : q.WellFormed :=
  foldlM_keeps hf h hq

/-! ## Construction and arithmetic -/

theorem empty : (Poly.empty : Poly R).WellFormed := ⟨List.Pairwise.nil, by simp [Poly.empty]⟩

theorem singleton (hm : m.Fits) : WellFormed ⟨[m]⟩ :=
  ⟨List.pairwise_singleton _ m, by simpa using hm⟩

theorem one : (Poly.one : Poly R).WellFormed := singleton (Monomial.Fits.constant 1)

theorem ofVariable {name : String} (h : Poly.ofVariable name = .ok p) : p.WellFormed := by
  unfold Poly.ofVariable at h
  cases hm : (Monomial.ofVariable name : Except UnknownVariable (Monomial R)) with
  | error e => rw [hm] at h; cases h
  | ok m =>
    rw [hm] at h
    cases h
    exact singleton (Monomial.Fits.ofVariable hm)

theorem ofTerms {ms : List (Monomial R)} (h : ∀ m ∈ ms, m.Fits) : (ofTerms ms).WellFormed :=
  foldl (fun _ hp m hm => hp.addTerm (h m hm)) empty

theorem add (hp : p.WellFormed) (hq : q.WellFormed) : (p.add q).WellFormed :=
  foldl (fun _ hp m hm => hp.addTerm (hq.fits m hm)) hp

theorem sub (hp : p.WellFormed) (hq : q.WellFormed) : (p.sub q).WellFormed :=
  foldl (fun _ hp m hm => hp.subTerm (hq.fits m hm)) hp

/-- A change of the coefficients alone. -/
theorem map {f : Monomial R → Monomial R} (hf : ∀ m, (f m).powers = m.powers)
    (h : p.WellFormed) : WellFormed ⟨p.terms.map f⟩ := by
  refine ⟨?_, ?_⟩
  · refine List.pairwise_map.2 (h.ordered.imp ?_)
    intro m n hmn
    rwa [Monomial.order, hf, hf]
  · intro n hn
    obtain ⟨m, hm, rfl⟩ := List.mem_map.1 hn
    rw [Monomial.Fits, hf]
    exact h.fits m hm

theorem scale (h : p.WellFormed) (k : R.Carrier) : (p.scale k).WellFormed := h.map fun _ => rfl

theorem scaleLeft (h : p.WellFormed) (k : R.Carrier) : (p.scaleLeft k).WellFormed :=
  h.map fun _ => rfl

theorem neg (h : p.WellFormed) : p.neg.WellFormed := h.scale _

theorem mul (hp : p.WellFormed) (hq : q.WellFormed) : (p.mul q).WellFormed :=
  foldl (fun _ hr m hm =>
    foldl (fun _ hs n hn => hs.addTerm ((hp.fits m hm).mul (hq.fits n hn))) hr) empty

theorem pow (h : p.WellFormed) (n : Nat) : (p.pow n).WellFormed := by
  cases n with
  | zero => exact one
  | succ n =>
    show (Nat.repeat (·.mul p) n p).WellFormed
    induction n with
    | zero => exact h
    | succ n ih => exact ih.mul h

theorem powInt {e : Int} (h : p.WellFormed) (hq : p.powInt e = .ok q) : q.WellFormed := by
  cases e with
  | ofNat n => cases hq; exact h.pow n
  | negSucc n => cases hq

theorem prune (h : p.WellFormed) : p.prune.WellFormed :=
  ⟨h.ordered.sublist List.filter_sublist, fun m hm => h.fits m ((List.mem_filter.1 hm).1)⟩

theorem derivative {name : String} (h : p.WellFormed) (hq : p.derivative name = .ok q) :
    q.WellFormed := by
  cases hs : R.slot name with
  | error e => rw [Poly.derivative, hs] at hq; cases hq
  | ok slot =>
    rw [derivative_of_slot hs] at hq
    cases hr : p.nonzero.foldlM (addDerivative slot) Poly.empty with
    | error e => rw [hr] at hq; cases hq
    | ok r =>
      rw [hr] at hq
      cases hq
      refine foldlM ?_ empty hr
      intro d hd m hm d' hd'
      unfold addDerivative at hd'
      split at hd'
      · cases hd'; exact hd
      · rename_i e _
        cases hk : (Coefficient.ofInt (e + 1 : Nat) : Except RangeError R.Carrier) with
        | error e => rw [hk] at hd'; cases hd'
        | ok k =>
          rw [hk] at hd'
          cases hd'
          refine hd.addTerm ?_
          show (m.powers.set slot e).length = R.arity
          rw [List.length_set]
          exact h.fits m ((List.mem_filter.1 hm).1)

end WellFormed
end Poly
end Multipoly
