import Mathlib.Data.List.Basic
import Multipoly.Proofs.SameRing

/-!
# Operands of another ring

The operators meet the terms of an operand one by one, and an update in place merges each before it
looks at the next. A refusal halfway would leave a part of the operand merged. It cannot come: the
terms of an operand all belong to one ring, so either every one of them is granted, or the first one
is refused and nothing has been merged. An operand without terms is never refused.

Results:
* `Poly.forM_mergeAny_foreign`: merges of terms of another ring;
* `Poly.eq_of_forM_mergeAny_error`: a refused merge of terms of one ring leaves the polynomial as
  it was;
* `Poly.times_foreign`: products of polynomials of two rings;
* `Poly.foreign_operands`: sums, differences, products and updates over two rings.
-/
namespace Multipoly
variable {R S : PolyRing}

/-- A sequence of updates ends at the first one when that is refused. -/
theorem Update.apply_forM_cons_of_error {α : Type} {f : α → Update R} {x : α} {p p' : Poly R}
    {e : RingError} (hx : (f x).apply p = (.error e, p')) (xs : List α) :
    Update.apply ((x :: xs).forM f) p = (.error e, p') := by
  show Update.apply (f x >>= fun _ => xs.forM f) p = _
  rw [apply_bind, hx]

namespace Poly

/-! ## Updates -/

section
variable (f : Poly R → Monomial R → Poly R)

/-- Of the terms of another ring the first one is refused. -/
theorem forM_mergeAny_foreign (hS : S ≠ R) (ms : List (Monomial S)) (p : Poly R) :
    Update.apply (ms.forM (mergeAny f)) p =
      (if ms = [] then .ok () else .error (.foreignTerm S R), p) := by
  cases ms with
  | nil => rfl
  | cons m ms =>
    rw [if_neg (List.cons_ne_nil m ms)]
    exact Update.apply_forM_cons_of_error ((mergeAny_apply f m p).trans (dif_neg hS)) ms

/-- A refusal comes before the first merge. -/
theorem eq_of_forM_mergeAny_error {ms : List (Monomial S)} {p p' : Poly R} {e : RingError}
    (h : Update.apply (ms.forM (mergeAny f)) p = (.error e, p')) : p' = p := by
  by_cases hS : S = R
  · subst hS
    rw [forM_mergeAny] at h
    cases h
  · rw [forM_mergeAny_foreign f hS] at h
    exact (congrArg Prod.snd h).symm

theorem eq_of_mergeAny_error {m : Monomial S} {p p' : Poly R} {e : RingError}
    (h : (mergeAny f m).apply p = (.error e, p')) : p' = p := by
  rw [mergeAny_apply] at h
  split at h
  · cases h
  · exact (congrArg Prod.snd h).symm

end

/-! ## Products -/

theorem addProduct_foreign (hS : S ≠ R) (product : Poly R) (m : Monomial R) (n : Monomial S) :
    addProduct product m n = .error (.foreignFactor R S) := by
  rw [addProduct, Monomial.mulAny, dif_neg hS]
  rfl

/-- The first product of two terms is refused, if there is one. -/
theorem times_foreign (hS : S ≠ R) (p : Poly R) (q : Poly S) :
    p.times (.poly S q) =
      if p.terms = [] ∨ q.terms = [] then .ok empty else .error (.foreignFactor R S) := by
  obtain ⟨ms⟩ := p
  obtain ⟨ns⟩ := q
  cases ns with
  | nil =>
    -- every row of the product is empty, whatever the terms on the left are
    rw [if_pos (.inr rfl)]
    refine (foldlM_of_ok (fun _ _ _ => rfl) empty).trans ?_
    rw [List.foldl_fixed]
  | cons n ns =>
    cases ms with
    | nil => rw [if_pos (.inl rfl)]; rfl
    | cons m ms =>
      rw [if_neg (by simp)]
      show (do ms.foldlM _ (← List.foldlM (addProduct · m) empty (n :: ns))) = _
      rw [List.foldlM_cons, addProduct_foreign hS]
      rfl

/-! ## Two rings -/

/-- An operand of another ring, with another domain or other variables, is refused by sums,
differences and updates if it stores a term, and otherwise leaves the polynomial as it is. Products
are refused if both polynomials store a term, and otherwise are empty. A refused update, with an
operand of any kind and any ring, leaves the stored terms as they were.

The terms of a polynomial belong to its ring by their type, so this needs no assumption on how the
polynomials were made. -/
theorem foreign_operands (hS : S ≠ R) (a : Poly R) (b : Poly S) :
    a.plus (.poly S b) = (if b.terms = [] then .ok a else .error (.foreignTerm S R)) ∧
    a.minus (.poly S b) = (if b.terms = [] then .ok a else .error (.foreignTerm S R)) ∧
    (increase (.poly S b)).apply a =
      (if b.terms = [] then .ok () else .error (.foreignTerm S R), a) ∧
    (decrease (.poly S b)).apply a =
      (if b.terms = [] then .ok () else .error (.foreignTerm S R), a) ∧
    a.times (.poly S b) =
      (if a.terms = [] ∨ b.terms = [] then .ok empty else .error (.foreignFactor R S)) ∧
    (∀ (o : Operand R) (e : RingError) (a' : Poly R),
      (increase o).apply a = (.error e, a') ∨ (decrease o).apply a = (.error e, a') → a' = a) ∧
    ∀ (T : PolyRing) (m : Monomial T) (e : RingError) (a' : Poly R),
      (addMonomial m).apply a = (.error e, a') ∨ (subMonomial m).apply a = (.error e, a') →
        a' = a := by
  have hadd : (increase (.poly S b)).apply a = _ := forM_mergeAny_foreign addTerm hS b.terms a
  have hsub : (decrease (.poly S b)).apply a = _ := forM_mergeAny_foreign subTerm hS b.terms a
  have hcopy : (if b.terms = [] then .ok () else .error (.foreignTerm S R) :
      Except RingError Unit).map (fun _ => a) =
        if b.terms = [] then .ok a else .error (.foreignTerm S R) := by
    split <;> rfl
  refine ⟨(Update.on_of_apply hadd).trans hcopy, (Update.on_of_apply hsub).trans hcopy, hadd, hsub,
    times_foreign hS a b, ?_, ?_⟩
  · rintro o e a' (h | h)
    · exact eq_of_forM_mergeAny_error addTerm h
    · exact eq_of_forM_mergeAny_error subTerm h
  · rintro T m e a' (h | h)
    · exact eq_of_mergeAny_error addTerm h
    · exact eq_of_mergeAny_error subTerm h

/-- A term with the coefficient zero is refused as any other. -/
theorem foreign_operands_zero_term :
    let R : PolyRing := ⟨.integer, ['x', 'y'], by simp, by simp, by simp [alphabet]⟩
    let S : PolyRing := ⟨.rational, ['x', 'y'], by simp, by simp, by simp [alphabet]⟩
    let x : Poly R := ⟨[⟨(1 : Int), [1, 0]⟩]⟩
    let zero : Poly S := ⟨[⟨(0 : Rat), [0, 0]⟩]⟩
    S ≠ R ∧ zero.isZero = true ∧ x.plus (.poly S zero) = .error (.foreignTerm S R) ∧
      (decrease (.poly S zero)).apply x = (.error (.foreignTerm S R), x) ∧
      x.times (.poly S zero) = .error (.foreignFactor R S) ∧
      x.times (.poly S empty) = .ok empty := by
  intro R S x zero
  have hS : S ≠ R := by decide
  obtain ⟨hplus, -, -, hdecrease, htimes, -, -⟩ := foreign_operands hS x zero
  obtain ⟨-, -, -, -, hempty, -, -⟩ := foreign_operands hS x empty
  exact ⟨hS, by decide, hplus, hdecrease, htimes, hempty⟩

end Poly
end Multipoly
