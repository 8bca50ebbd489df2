import Multipoly.Proofs.ParsedTerms

/-!
# Reachable polynomials

The polynomials that a run of operations can produce, over every ring at once: an operand may be a
scalar, a term or a polynomial of another ring, and an update in place counts with the polynomial
it leaves, whether it was refused or not. Every one of them is well formed.

A term of a polynomial belongs to the ring of the polynomial by its type. What the operations add
to this is that a term of another ring is refused and never stored.

Results:
* `Update.forM_keeps`, `Poly.mergeAny_keeps`: what updates keep, granted or refused;
* `Poly.WellFormed.increase`, `Poly.WellFormed.decrease`: updates in place keep the invariant;
* `Poly.WellFormed.times`, `Poly.WellFormed.ofMonomials`: so do products and construction;
* `Poly.Reachable.wellFormed`, `Poly.Reachable.invariant`: the invariant of every reachable
  polynomial.
-/
namespace Multipoly
variable {R S : PolyRing}

/-! ## Updates -/

/-- An update after another starts where the first one ended, unless that was refused. -/
theorem Update.apply_bind (u v : Update R) (p : Poly R) :
    Update.apply (u >>= fun _ => v) p =
      match u.apply p with
      | (.ok _, p') => v.apply p'
      | (.error e, p') => (.error e, p') := by
  unfold Update.apply ExceptT.run StateT.run
  simp only [bind, ExceptT.bind, ExceptT.mk, ExceptT.bindCont, StateT.bind]
  rcases u p with ⟨outcome, p'⟩
  cases outcome <;> rfl

theorem Update.on_eq_ok {u : Update R} {p q : Poly R} (h : u.on p = .ok q) :
    q = (u.apply p).2 := by
  unfold Update.on at h
  rcases hu : u.apply p with ⟨outcome, p'⟩
  rw [hu] at h
  cases outcome with
  | ok _ => cases h; rfl
  | error e => cases h

/-- What every update keeps, granted or refused, holds after all of them. -/
theorem Update.forM_keeps {α : Type} {I : Poly R → Prop} {f : α → Update R} {xs : List α}
    {p : Poly R} (hf : ∀ p, I p → ∀ x ∈ xs, I ((f x).apply p).2) (h : I p) :
    I (Update.apply (xs.forM f) p).2 := by
  induction xs generalizing p with
  | nil => exact h
  | cons x xs ih =>
    have hx := hf p h x List.mem_cons_self
    show I (Update.apply (f x >>= fun _ => xs.forM f) p).2
    rw [Update.apply_bind]
    rcases hu : (f x).apply p with ⟨outcome, p'⟩
    rw [hu] at hx
    cases outcome with
    | ok _ => exact ih (fun p hp y hy => hf p hp y (List.mem_cons_of_mem _ hy)) hx
    | error e => exact hx

namespace Poly

theorem mergeAny_apply (f : Poly R → Monomial R → Poly R) (m : Monomial S) (p : Poly R) :
    (mergeAny f m).apply p =
      if h : S = R then (.ok (), f p (m.cast h)) else (.error (.foreignTerm S R), p) := by
  unfold mergeAny
  split <;> rfl

/-- A merge keeps what it keeps when it is granted, since a refused one changes nothing. -/
theorem mergeAny_keeps {I : Poly R → Prop} {f : Poly R → Monomial R → Poly R} {m : Monomial S}
    {p : Poly R} (hp : I p) (hm : ∀ h : S = R, I (f p (m.cast h))) :
    I ((mergeAny f m).apply p).2 := by
  rw [mergeAny_apply]
  by_cases hS : S = R
  · rw [dif_pos hS]
    exact hm hS
  · rw [dif_neg hS]
    exact hp

theorem addMonomial_apply (m : Monomial S) (p : Poly R) :
    (addMonomial m).apply p =
      if h : S = R then (.ok (), p.addTerm (m.cast h)) else (.error (.foreignTerm S R), p) :=
  mergeAny_apply addTerm m p

theorem subMonomial_apply (m : Monomial S) (p : Poly R) :
    (subMonomial m).apply p =
      if h : S = R then (.ok (), p.subTerm (m.cast h)) else (.error (.foreignTerm S R), p) :=
  mergeAny_apply subTerm m p

namespace WellFormed
variable {p q : Poly R}

theorem addMonomial {m : Monomial S} (h : p.WellFormed) (hm : m.Fits) :
    ((Poly.addMonomial m).apply p).2.WellFormed :=
  mergeAny_keeps h fun hS => h.addTerm (hm.cast hS)

theorem subMonomial {m : Monomial S} (h : p.WellFormed) (hm : m.Fits) :
    ((Poly.subMonomial m).apply p).2.WellFormed :=
  mergeAny_keeps h fun hS => h.subTerm (hm.cast hS)

/-- Updates one after the other keep the invariant, also where one of them is refused. -/
theorem forM {α : Type} {f : α → Update R} {xs : List α}
    (hf : ∀ p : Poly R, p.WellFormed → ∀ x ∈ xs, ((f x).apply p).2.WellFormed)
    (h : p.WellFormed) : (Update.apply (xs.forM f) p).2.WellFormed :=
  Update.forM_keeps hf h

end WellFormed
end Poly

/-! ## Operands -/

/-- The terms of the operand fit their ring. -/
def Operand.Fits (o : Operand R) : Prop := ∀ m ∈ o.terms, m.Fits

namespace Poly.WellFormed
variable {p q : Poly R} {o : Operand R}

theorem increase (h : p.WellFormed) (ho : o.Fits) : ((Poly.increase o).apply p).2.WellFormed :=
  forM (fun _ hp m hm => hp.addMonomial (ho m hm)) h

theorem decrease (h : p.WellFormed) (ho : o.Fits) : ((Poly.decrease o).apply p).2.WellFormed :=
  forM (fun _ hp m hm => hp.subMonomial (ho m hm)) h

theorem plus (h : p.WellFormed) (ho : o.Fits) (hq : p.plus o = .ok q) : q.WellFormed :=
  Update.on_eq_ok hq ▸ h.increase ho

theorem minus (h : p.WellFormed) (ho : o.Fits) (hq : p.minus o = .ok q) : q.WellFormed :=
  Update.on_eq_ok hq ▸ h.decrease ho

theorem minusFrom (h : p.WellFormed) (ho : o.Fits) (hq : minusFrom o p = .ok q) : q.WellFormed :=
  h.neg.plus ho hq

theorem addProduct {m : Monomial R} {n : Monomial S} (h : p.WellFormed) (hm : m.Fits)
    (hn : n.Fits) (hq : addProduct p m n = .ok q) : q.WellFormed := by
  unfold Poly.addProduct at hq
  cases hmn : m.mulAny n with
  | error e => rw [hmn] at hq; cases hq
  | ok mn =>
    rw [hmn] at hq
    cases hq
    exact h.addTerm (hm.mulAny hn hmn)

theorem times (h : p.WellFormed) (ho : o.Fits) (hq : p.times o = .ok q) : q.WellFormed := by
  have hfold : p.terms.foldlM (fun product m => o.terms.foldlM (Poly.addProduct · m) product)
      Poly.empty = .ok q → q.WellFormed := by
    refine foldlM (fun r hr m hm r' hr' => ?_) empty
    exact foldlM (fun s hs n hn s' hs' => hs.addProduct (h.fits m hm) (ho n hn) hs') hr hr'
  cases o with
  | scalar k => cases hq; exact h.scale k
  | monomial S m => exact hfold hq
  | poly S q => exact hfold hq

theorem timesFrom (h : p.WellFormed) (ho : o.Fits) (hq : timesFrom o p = .ok q) :
    q.WellFormed := by
  cases o with
  | scalar k => cases hq; exact h.scaleLeft k
  | monomial S m => exact h.times ho hq
  | poly S q => exact h.times ho hq

theorem ofMonomials {ms : List ((S : PolyRing) × Monomial S)} (hms : ∀ m ∈ ms, m.2.Fits)
    (hq : ofMonomials ms = .ok q) : q.WellFormed := by
  rw [Update.on_eq_ok hq]
  exact forM (fun _ hp m hm => hp.addMonomial (hms m hm)) empty

end Poly.WellFormed

/-! ## Runs of operations -/

/-- The polynomials that operations produce from terms that were granted. A term or a polynomial
that is an operand may belong to any ring; a scalar may be any number. A copy is the same value. -/
inductive Poly.Reachable : {R : PolyRing} → Poly R → Prop
  | ofMonomials {R : PolyRing} {p : Poly R} {ms : List ((S : PolyRing) × Monomial S)}
      (hms : ∀ m ∈ ms, m.2.Granted) (h : ofMonomials ms = .ok p) : Reachable p
  | one (R : PolyRing) : Reachable (Poly.one : Poly R)
  | ofVariable {R : PolyRing} {p : Poly R} {name : String} (h : ofVariable name = .ok p) :
      Reachable p
  | read {R : PolyRing} {p : Poly R} {text : List Char} (h : Poly.read R text = .ok p) :
      Reachable p
  | addMonomial {R S : PolyRing} {p : Poly R} {m : Monomial S} (hp : Reachable p)
      (hm : m.Granted) : Reachable ((addMonomial m).apply p).2
  | subMonomial {R S : PolyRing} {p : Poly R} {m : Monomial S} (hp : Reachable p)
      (hm : m.Granted) : Reachable ((subMonomial m).apply p).2
  | increase {R : PolyRing} {p : Poly R} {o : Operand R} (hp : Reachable p)
      (hm : ∀ S m, o = .monomial S m → m.Granted) (hq : ∀ S q, o = .poly S q → Reachable q) :
      Reachable ((increase o).apply p).2
  | decrease {R : PolyRing} {p : Poly R} {o : Operand R} (hp : Reachable p)
      (hm : ∀ S m, o = .monomial S m → m.Granted) (hq : ∀ S q, o = .poly S q → Reachable q) :
      Reachable ((decrease o).apply p).2
  | plus {R : PolyRing} {p r : Poly R} {o : Operand R} (hp : Reachable p)
      (hm : ∀ S m, o = .monomial S m → m.Granted) (hq : ∀ S q, o = .poly S q → Reachable q)
      (h : p.plus o = .ok r) : Reachable r
  | minus {R : PolyRing} {p r : Poly R} {o : Operand R} (hp : Reachable p)
      (hm : ∀ S m, o = .monomial S m → m.Granted) (hq : ∀ S q, o = .poly S q → Reachable q)
      (h : p.minus o = .ok r) : Reachable r
  | minusFrom {R : PolyRing} {p r : Poly R} {o : Operand R} (hp : Reachable p)
      (hm : ∀ S m, o = .monomial S m → m.Granted) (hq : ∀ S q, o = .poly S q → Reachable q)
      (h : minusFrom o p = .ok r) : Reachable r
  | times {R : PolyRing} {p r : Poly R} {o : Operand R} (hp : Reachable p)
      (hm : ∀ S m, o = .monomial S m → m.Granted) (hq : ∀ S q, o = .poly S q → Reachable q)
      (h : p.times o = .ok r) : Reachable r
  | timesFrom {R : PolyRing} {p r : Poly R} {o : Operand R} (hp : Reachable p)
      (hm : ∀ S m, o = .monomial S m → m.Granted) (hq : ∀ S q, o = .poly S q → Reachable q)
      (h : timesFrom o p = .ok r) : Reachable r
  | neg {R : PolyRing} {p : Poly R} (hp : Reachable p) : Reachable p.neg
  | scale {R : PolyRing} {p : Poly R} (hp : Reachable p) (k : R.Carrier) : Reachable (p.scale k)
  | powInt {R : PolyRing} {p r : Poly R} {e : Int} (hp : Reachable p) (h : p.powInt e = .ok r) :
      Reachable r
  | prune {R : PolyRing} {p : Poly R} (hp : Reachable p) : Reachable p.prune
  | derivative {R : PolyRing} {p r : Poly R} {name : String} (hp : Reachable p)
      (h : p.derivative name = .ok r) : Reachable r

namespace Poly.Reachable
variable {p : Poly R}

/-- An operand made of a granted term or a well-formed polynomial has terms that fit. -/
theorem operand_fits {o : Operand R} (hm : ∀ S m, o = .monomial S m → m.Granted)
    (hq : ∀ S q, o = .poly S q → WellFormed q) : o.Fits := by
  cases o with
  | scalar k => exact List.forall_mem_singleton.2 (Monomial.Fits.constant k)
  | monomial S m => exact List.forall_mem_singleton.2 (Monomial.granted_iff_fits.1 (hm S m rfl))
  | poly S q => exact (hq S q rfl).fits

theorem wellFormed (h : p.Reachable) : p.WellFormed := by
  induction h with
  | ofMonomials hms h =>
    exact WellFormed.ofMonomials (fun m hm => Monomial.granted_iff_fits.1 (hms m hm)) h
  | one R => exact WellFormed.one
  | ofVariable h => exact WellFormed.ofVariable h
  | read h => exact WellFormed.read h
  | addMonomial _ hm ih => exact ih.addMonomial (Monomial.granted_iff_fits.1 hm)
  | subMonomial _ hm ih => exact ih.subMonomial (Monomial.granted_iff_fits.1 hm)
  | increase _ hm _ ih ihq => exact ih.increase (operand_fits hm ihq)
  | decrease _ hm _ ih ihq => exact ih.decrease (operand_fits hm ihq)
  | plus _ hm _ h ih ihq => exact ih.plus (operand_fits hm ihq) h
  | minus _ hm _ h ih ihq => exact ih.minus (operand_fits hm ihq) h
  | minusFrom _ hm _ h ih ihq => exact ih.minusFrom (operand_fits hm ihq) h
  | times _ hm _ h ih ihq => exact ih.times (operand_fits hm ihq) h
  | timesFrom _ hm _ h ih ihq => exact ih.timesFrom (operand_fits hm ihq) h
  | neg _ ih => exact ih.neg
  | scale _ k ih => exact ih.scale k
  | powInt _ h ih => exact ih.powInt h
  | prune _ ih => exact ih.prune
  | derivative _ h ih => exact ih.derivative h

/-- The stored terms of a reachable polynomial are strictly ordered, no two of them have equal
powers, each has one power for every variable of the ring, and a term of another ring is refused
without being stored. -/
theorem invariant (h : p.Reachable) :
    (p.terms.Pairwise fun m n => m.order n = .lt) ∧ (p.terms.map (·.powers)).Nodup ∧
      (∀ m ∈ p.terms, m.powers.length = R.arity) ∧
      ∀ (S : PolyRing) (m : Monomial S), S ≠ R →
        (Poly.addMonomial m).apply p = (.error (.foreignTerm S R), p) ∧
        (Poly.subMonomial m).apply p = (.error (.foreignTerm S R), p) := by
  refine ⟨h.wellFormed.ordered, h.wellFormed.ordered.nodup, h.wellFormed.fits, ?_⟩
  intro S m hS
  rw [addMonomial_apply, subMonomial_apply, dif_neg hS, dif_neg hS]
  exact ⟨rfl, rfl⟩

/-- The square of `x + 1` with integer coefficients, after `y` of another ring was refused. -/
theorem invariant_square :
    let R : PolyRing := ⟨.integer, ['x', 'y'], by simp, by simp, by simp [alphabet]⟩
    let p : Poly R := ⟨[⟨(1 : Int), [2, 0]⟩, ⟨(2 : Int), [1, 0]⟩, ⟨(1 : Int), [0, 0]⟩]⟩
    p.Reachable ∧ (p.terms.Pairwise fun m n => m.order n = .lt) ∧
      (p.terms.map (·.powers)).Nodup ∧ (∀ m ∈ p.terms, m.powers.length = R.arity) ∧
      ∀ (S : PolyRing) (m : Monomial S), S ≠ R →
        (Poly.addMonomial m).apply p = (.error (.foreignTerm S R), p) ∧
        (Poly.subMonomial m).apply p = (.error (.foreignTerm S R), p) := by
  intro R p
  let S : PolyRing := ⟨.rational, ['y'], by simp, by simp, by simp [alphabet]⟩
  have hx : Reachable (⟨[⟨(1 : Int), [1, 0]⟩]⟩ : Poly R) := @ofVariable R _ "x" rfl
  have hsum : Reachable (⟨[⟨(1 : Int), [1, 0]⟩, ⟨(1 : Int), [0, 0]⟩]⟩ : Poly R) :=
    @increase R _ (.scalar (1 : Int)) hx nofun nofun
  have hsquare : p.Reachable := @powInt R _ _ 2 hsum rfl
  have hy : (⟨(1 : Rat), [1]⟩ : Monomial S).Granted := ⟨[1], rfl⟩
  have hp : p.Reachable := @addMonomial R S p _ hsquare hy
  exact ⟨hp, invariant hp⟩

end Poly.Reachable
end Multipoly
