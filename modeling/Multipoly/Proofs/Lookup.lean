import Multipoly.Proofs.GradedOrder
import Multipoly.Proofs.SameRing

/-!
# Looking terms up

In a strictly ordered polynomial the search by halving finds the only place that has the terms
listed before `m` in front of it and no such term behind it. A merge changes the coefficient of the
term at this place, if that has the powers of `m`, or puts one term in there; so the merge that
walks along the terms is the one at the place that was found.

Results:
* `bisect_eq`: halving finds the place up to which a property holds;
* `Poly.Splits.locate_eq`: the place of a term is the number of terms before it;
* `Poly.Splits.mergeAt_eq`: a merge at this place, and the one that walks along;
* `Poly.locate_merge`: the look-up, and one term added or subtracted there.
-/
namespace Multipoly

/-! ## Halving -/

/-- The invariant is that the place sought lies in the interval. -/
theorem bisect_eq {before : Nat → Bool} {lo hi k : Nat} (hlo : lo ≤ k) (hhi : k ≤ hi)
    (hk : ∀ i < hi, before i = true ↔ i < k) : bisect before lo hi = k := by
  fun_induction bisect before lo hi with
  | case1 lo hi hlt mid hmid ih =>
    have hmidk : mid < k := (hk mid (by omega)).1 hmid
    exact ih hmidk hhi hk
  | case2 lo hi hlt mid hmid ih =>
    have hkmid : k ≤ mid := Nat.le_of_not_lt fun h => hmid ((hk mid (by omega)).2 h)
    exact ih hlo hkmid fun i hi => hk i (by omega)
  | case3 lo hi hge => omega

/-! ## Places of a list -/

theorem insertIdx_length_append {α : Type} (xs ys : List α) (a : α) :
    (xs ++ ys).insertIdx xs.length a = xs ++ a :: ys := by
  induction xs with
  | nil => rfl
  | cons x xs ih => exact congrArg (x :: ·) ih

theorem modify_length_append {α : Type} (xs ys : List α) (a : α) (f : α → α) :
    (xs ++ a :: ys).modify xs.length f = xs ++ f a :: ys := by
  induction xs with
  | nil => rfl
  | cons x xs ih => exact congrArg (x :: ·) ih

/-! ## Keys -/

namespace Powers

/-- Terms with equal keys have equal powers. -/
theorem sortKey_inj {u v : Powers} : u.sortKey = v.sortKey ↔ u = v := by
  constructor
  · intro h
    rw [← order_eq_iff, order_eq_compareKeys, h, ← order_eq_compareKeys, order_self]
  · rintro rfl
    rfl

end Powers

namespace Poly
variable {R : PolyRing} {p : Poly R} {m : Monomial R} {earlier later : List (Monomial R)}

/-! ## Places -/

/-- The terms are those listed before `m` and, behind them, those that are not. -/
structure Splits (p : Poly R) (m : Monomial R) (earlier later : List (Monomial R)) : Prop where
  terms_eq : p.terms = earlier ++ later
  before : ∀ n ∈ earlier, n.order m = .lt
  notBefore : ∀ n ∈ later, n.order m ≠ .lt

/-- Strictly ordered terms can be split at every term. -/
theorem Ordered.exists_splits (hp : p.Ordered) (m : Monomial R) :
    ∃ earlier later, p.Splits m earlier later := by
  obtain ⟨ms⟩ := p
  induction ms with
  | nil => exact ⟨[], [], rfl, nofun, nofun⟩
  | cons n ms ih =>
    obtain ⟨hhead, htail⟩ := List.pairwise_cons.1 hp
    by_cases hn : n.order m = .lt
    · obtain ⟨earlier, later, hterms, hbefore, hnotBefore⟩ := ih htail
      exact ⟨n :: earlier, later, congrArg (n :: ·) hterms,
        List.forall_mem_cons.2 ⟨hn, hbefore⟩, hnotBefore⟩
    · -- A term behind `n` that is listed before `m` would have `n` before it too.
      exact ⟨[], n :: ms, rfl, nofun, List.forall_mem_cons.2
        ⟨hn, fun l hl hlm => hn (Powers.order_lt_trans (hhead l hl) hlm)⟩⟩

namespace Splits

theorem before_iff (h : p.Splits m earlier later) {i : Nat} {n : Monomial R}
    (hn : p.terms[i]? = some n) : n.order m = .lt ↔ i < earlier.length := by
  rw [h.terms_eq] at hn
  by_cases hi : i < earlier.length
  · rw [List.getElem?_append_left hi] at hn
    exact iff_of_true (h.before n (List.mem_of_getElem? hn)) hi
  · rw [List.getElem?_append_right (Nat.le_of_not_lt hi)] at hn
    exact iff_of_false (h.notBefore n (List.mem_of_getElem? hn)) hi

/-- The search finds the number of the terms before `m`, and looks at the powers of the next one. -/
theorem locate_eq (h : p.Splits m earlier later) :
    p.locate m = (earlier.length, later.head?.any fun n => n.powers = m.powers) := by
  have hlength : earlier.length ≤ p.terms.length := by
    rw [h.terms_eq, List.length_append]
    exact Nat.le_add_right _ _
  have hpos : bisect (fun i => ((p.terms[i]?).map (·.powers.sortKey)).any
      (Powers.compareKeys · m.powers.sortKey == .lt)) 0 p.terms.length = earlier.length := by
    refine bisect_eq (Nat.zero_le _) hlength fun i hi => ?_
    have hn : p.terms[i]? = some p.terms[i] := List.getElem?_eq_getElem hi
    rw [← h.before_iff hn, hn, Monomial.order, Powers.order_eq_compareKeys]
    exact beq_iff_eq
  have hnext : p.terms[earlier.length]? = later.head? := by
    rw [h.terms_eq, List.getElem?_append_right (Nat.le_refl _), Nat.sub_self,
      List.head?_eq_getElem?]
  unfold locate
  dsimp only
  rw [hpos, hnext]
  refine congrArg (earlier.length, ·) ?_
  cases later with
  | nil => rfl
  | cons n later =>
    rw [Bool.eq_iff_iff]
    simp [Powers.sortKey_inj]

/-- No other place splits the terms. -/
theorem unique {earlier' later' : List (Monomial R)} (h : p.Splits m earlier later)
    (h' : p.Splits m earlier' later') : earlier' = earlier ∧ later' = later := by
  have hlength : earlier'.length = earlier.length :=
    congrArg Prod.fst (h'.locate_eq.symm.trans h.locate_eq)
  exact List.append_inj (h'.terms_eq.symm.trans h.terms_eq) hlength

/-- The term with the powers of `m`, if there is one, is the first that is not listed before `m`. -/
theorem mem_head (h : p.Splits m earlier later) (hp : p.Ordered) {n : Monomial R}
    (hn : n ∈ p.terms) (hpowers : n.powers = m.powers) : ∃ rest, later = n :: rest := by
  have horder : n.order m ≠ .lt := by
    rw [Monomial.order, hpowers]
    exact Powers.order_lt_irrefl _
  rw [Ordered, h.terms_eq] at hp
  rw [h.terms_eq, List.mem_append] at hn
  have hlater : n ∈ later := hn.resolve_left fun hn => horder (h.before n hn)
  cases later with
  | nil => cases hlater
  | cons k rest =>
    rcases List.mem_cons.1 hlater with rfl | hrest
    · exact ⟨rest, rfl⟩
    · have hkn := (List.pairwise_cons.1 (List.pairwise_append.1 hp).2.1).1 n hrest
      rw [Monomial.order, hpowers] at hkn
      exact absurd hkn (h.notBefore k List.mem_cons_self)

theorem found_iff (h : p.Splits m earlier later) (hp : p.Ordered) :
    (p.locate m).2 = true ↔ ∃ n ∈ p.terms, n.powers = m.powers := by
  rw [h.locate_eq]
  constructor
  · intro hfound
    cases later with
    | nil => cases hfound
    | cons n rest =>
      refine ⟨n, ?_, of_decide_eq_true hfound⟩
      rw [h.terms_eq]
      exact List.mem_append_right _ List.mem_cons_self
  · intro hexists
    obtain ⟨n, hn, hpowers⟩ := hexists
    obtain ⟨rest, rfl⟩ := h.mem_head hp hn hpowers
    exact decide_eq_true hpowers

end Splits

/-! ## Merges -/

section
variable (join : R.Carrier → R.Carrier) (fresh : R.Carrier)

/-- A merge passes the terms that are listed before its powers. -/
theorem merge_append_of_before {u : Powers} {ms : List (Monomial R)}
    (hms : ∀ n ∈ ms, n.powers.order u = .lt) (ns : List (Monomial R)) :
    merge join fresh u (ms ++ ns) = ms ++ merge join fresh u ns := by
  induction ms with
  | nil => rfl
  | cons n ms ih =>
    obtain ⟨hn, hms⟩ := List.forall_mem_cons.1 hms
    rw [List.cons_append, merge, Powers.order_gt_iff.2 hn]
    exact congrArg (n :: ·) (ih hms)

namespace Splits

/-- The term that is found has its coefficient joined. -/
theorem merge_of_found {old : Monomial R} {rest : List (Monomial R)}
    (h : p.Splits m earlier (old :: rest)) (hold : old.powers = m.powers) :
    merge join fresh m.powers p.terms =
      earlier ++ { old with coeff := join old.coeff } :: rest := by
  rw [h.terms_eq, merge_append_of_before join fresh h.before, merge, hold, Powers.order_self]

/-- Where none is found a term is put in. -/
theorem merge_of_not_found (h : p.Splits m earlier later)
    (hlater : ∀ n ∈ later.head?, n.powers ≠ m.powers) :
    merge join fresh m.powers p.terms = earlier ++ ⟨fresh, m.powers⟩ :: later := by
  rw [h.terms_eq, merge_append_of_before join fresh h.before]
  cases later with
  | nil => rfl
  | cons n rest =>
    have hgt : n.powers.order m.powers = .gt := by
      cases horder : n.powers.order m.powers with
      | lt => exact absurd horder (h.notBefore n List.mem_cons_self)
      | eq => exact absurd (Powers.order_eq_iff.1 horder) (hlater n rfl)
      | gt => rfl
    rw [merge, Powers.order_gt_iff.1 hgt]

/-- A merge at the place that is found is the merge that walks along the terms. -/
theorem mergeAt_eq (h : p.Splits m earlier later) :
    p.mergeAt join fresh m = ⟨merge join fresh m.powers p.terms⟩ := by
  have hlocate := h.locate_eq
  unfold mergeAt
  rw [hlocate]
  cases later with
  | nil =>
    rw [h.merge_of_not_found join fresh nofun, h.terms_eq]
    exact congrArg Poly.mk (insertIdx_length_append earlier [] _)
  | cons n rest =>
    by_cases hn : n.powers = m.powers
    · rw [h.merge_of_found join fresh hn, h.terms_eq, List.head?_cons, Option.any_some,
        decide_eq_true hn]
      exact congrArg Poly.mk (modify_length_append earlier rest n _)
    · rw [h.merge_of_not_found join fresh (by simpa using hn), h.terms_eq, List.head?_cons,
        Option.any_some, decide_eq_false hn]
      exact congrArg Poly.mk (insertIdx_length_append earlier (n :: rest) _)

end Splits
end

/-- Strictly ordered terms split at every term `m` of the ring in one way only, into those listed
before it and those that are not. The look-up finds the place between them, and says whether a term
with the powers of `m` is stored; it is then the one at that place. Adding and subtracting `m` merge
at the place: the coefficient found there is changed, or one term is put in, and all other terms
stay as they are. The terms stay strictly ordered. -/
theorem locate_merge (hp : p.Ordered) (m : Monomial R) :
    ∃ earlier later, p.Splits m earlier later ∧
      (∀ earlier' later', p.Splits m earlier' later' → earlier' = earlier ∧ later' = later) ∧
      (p.locate m).1 = earlier.length ∧
      ((p.locate m).2 = true ↔ ∃ n ∈ p.terms, n.powers = m.powers) ∧
      (addMonomial m).apply p = (.ok (), p.mergeAt (· + m.coeff) m.coeff m) ∧
      (subMonomial m).apply p =
        (.ok (), p.mergeAt (· - m.coeff) (Coefficient.negate m.coeff) m) ∧
      ∀ (join : R.Carrier → R.Carrier) (fresh : R.Carrier),
        (p.mergeAt join fresh m).Ordered ∧
        ((p.locate m).2 = true → ∃ old rest, later = old :: rest ∧ old.powers = m.powers ∧
          (p.mergeAt join fresh m).terms =
            earlier ++ { old with coeff := join old.coeff } :: rest) ∧
        ((p.locate m).2 = false →
          (p.mergeAt join fresh m).terms = earlier ++ ⟨fresh, m.powers⟩ :: later) := by
  obtain ⟨earlier, later, h⟩ := hp.exists_splits m
  have hfound := h.found_iff hp
  refine ⟨earlier, later, h, fun _ _ h' => h.unique h', by rw [h.locate_eq], hfound, ?_, ?_, ?_⟩
  · rw [h.mergeAt_eq, addMonomial_apply, dif_pos rfl]
    rfl
  · rw [h.mergeAt_eq, subMonomial_apply, dif_pos rfl]
    rfl
  · intro join fresh
    rw [h.mergeAt_eq]
    refine ⟨pairwise_merge join fresh m.powers hp, fun htrue => ?_, fun hfalse => ?_⟩
    · obtain ⟨old, hold, hpowers⟩ := hfound.1 htrue
      obtain ⟨rest, rfl⟩ := h.mem_head hp hold hpowers
      exact ⟨old, rest, rfl, hpowers, h.merge_of_found join fresh hpowers⟩
    · refine h.merge_of_not_found join fresh fun n hn hpowers => ?_
      have hmem : n ∈ p.terms := by
        rw [h.terms_eq]
        exact List.mem_append_right _ (List.mem_of_mem_head? hn)
      rw [hfound.2 ⟨n, hmem, hpowers⟩] at hfalse
      cases hfalse

/-- Among `x²`, `0y` and `5`, the term `3y` has the second place and joins the zero term there; the
term `-y²` has the same place without being found. -/
theorem locate_merge_between :
    let R : PolyRing := ⟨.integer, ['x', 'y'], by simp, by simp, by simp [alphabet]⟩
    let p : Poly R := ⟨[⟨(1 : Int), [2, 0]⟩, ⟨(0 : Int), [0, 1]⟩, ⟨(5 : Int), [0, 0]⟩]⟩
    let m : Monomial R := ⟨(3 : Int), [0, 1]⟩
    let n : Monomial R := ⟨(-1 : Int), [0, 2]⟩
    p.Ordered ∧ p.locate m = (1, true) ∧ p.locate n = (1, false) ∧
      (subMonomial m).apply p =
        (.ok (), ⟨[⟨(1 : Int), [2, 0]⟩, ⟨(-3 : Int), [0, 1]⟩, ⟨(5 : Int), [0, 0]⟩]⟩) ∧
      (subMonomial n).apply p =
        (.ok (), ⟨[⟨(1 : Int), [2, 0]⟩, ⟨(1 : Int), [0, 2]⟩, ⟨(0 : Int), [0, 1]⟩,
          ⟨(5 : Int), [0, 0]⟩]⟩) := by
  intro R p m n
  have hp : p.Ordered := by unfold Ordered; decide
  have hm : p.Splits m [⟨(1 : Int), [2, 0]⟩] [⟨(0 : Int), [0, 1]⟩, ⟨(5 : Int), [0, 0]⟩] :=
    ⟨rfl, by decide, by decide⟩
  have hn : p.Splits n [⟨(1 : Int), [2, 0]⟩] [⟨(0 : Int), [0, 1]⟩, ⟨(5 : Int), [0, 0]⟩] :=
    ⟨rfl, by decide, by decide⟩
  obtain ⟨_, _, hsplit, -, -, -, -, hsub, hmerge⟩ := locate_merge hp m
  obtain ⟨_, _, hsplit', -, -, -, -, hsub', hmerge'⟩ := locate_merge hp n
  obtain ⟨rfl, rfl⟩ := hsplit.unique hm
  obtain ⟨rfl, rfl⟩ := hsplit'.unique hn
  have hfound : p.locate m = (1, true) := hm.locate_eq
  have hnotFound : p.locate n = (1, false) := hn.locate_eq
  obtain ⟨-, hjoined, -⟩ := hmerge (· - m.coeff) (Coefficient.negate m.coeff)
  obtain ⟨-, -, hput⟩ := hmerge' (· - n.coeff) (Coefficient.negate n.coeff)
  obtain ⟨old, rest, heq, -, hterms⟩ := hjoined (congrArg Prod.snd hfound)
  cases heq
  have hput := hput (congrArg Prod.snd hnotFound)
  refine ⟨hp, hfound, hnotFound, hsub.trans ?_, hsub'.trans ?_⟩
  · exact congrArg (Prod.mk (Except.ok ())) (congrArg Poly.mk hterms)
  · exact congrArg (Prod.mk (Except.ok ())) (congrArg Poly.mk hput)

end Poly
end Multipoly
