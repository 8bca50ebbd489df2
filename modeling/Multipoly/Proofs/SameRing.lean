import Multipoly.Proofs.Reachable

/-!
# Operands of one ring

The operators take operands of any ring. An operand that is a polynomial of the same ring is never
refused: the updates of all its terms are granted, and the result is the sum, the difference or the
product of the term lists.

Results:
* `Update.apply_forM`: updates that are all granted are the changes they make, one after the other;
* `Poly.forM_mergeAny`: merges of terms of the ring are all granted;
* `Sign.update_apply`: so are merges of terms with their signs;
* `Poly.plus_poly`, `Poly.minus_poly`, `Poly.times_poly`: the operators on two polynomials of one
  ring.
-/
namespace Multipoly
variable {R : PolyRing}

theorem Update.apply_forM {α : Type} {f : α → Update R} {g : Poly R → α → Poly R}
    (hf : ∀ p x, (f x).apply p = (.ok (), g p x)) (xs : List α) (p : Poly R) :
    Update.apply (xs.forM f) p = (.ok (), xs.foldl g p) := by
  induction xs generalizing p with
  | nil => rfl
  | cons x xs ih =>
    show Update.apply (f x >>= fun _ => xs.forM f) p = _
    rw [apply_bind, hf]
    exact ih (g p x)

/-- An update on a copy has the outcome of the update in place. -/
theorem Update.on_of_apply {u : Update R} {p p' : Poly R} {outcome : Except RingError Unit}
    (h : u.apply p = (outcome, p')) : u.on p = outcome.map fun _ => p' := by
  rw [on, h]

/-! ## Merges -/

namespace Poly

/-- Terms of the ring are merged one after the other. -/
theorem forM_mergeAny (f : Poly R → Monomial R → Poly R) (ms : List (Monomial R)) (p : Poly R) :
    Update.apply (ms.forM (mergeAny f)) p = (.ok (), ms.foldl f p) :=
  Update.apply_forM (fun p m => (mergeAny_apply f m p).trans (dif_pos rfl)) ms p

end Poly

/-! ## Signed terms -/

/-- The update that merges a monomial with its sign. -/
def Sign.update (s : Sign) (m : Monomial R) : Update R :=
  match s with
  | .plus => Poly.addMonomial m
  | .minus => Poly.subMonomial m

theorem Sign.update_apply (s : Sign) (m : Monomial R) (p : Poly R) :
    (s.update m).apply p = (.ok (), s.merge p m) := by
  cases s with
  | plus => exact (Poly.addMonomial_apply m p).trans (dif_pos rfl)
  | minus => exact (Poly.subMonomial_apply m p).trans (dif_pos rfl)

namespace Poly

/-! ## Sums, differences and products -/

theorem plus_poly (p q : Poly R) : p.plus (.poly R q) = .ok (p.add q) :=
  Update.on_of_apply (forM_mergeAny addTerm q.terms p)

theorem minus_poly (p q : Poly R) : p.minus (.poly R q) = .ok (p.sub q) :=
  Update.on_of_apply (forM_mergeAny subTerm q.terms p)

theorem addProduct_eq (product : Poly R) (m n : Monomial R) :
    addProduct product m n = .ok (product.addTerm (m.mul n)) := by
  rw [addProduct, Monomial.mulAny, dif_pos rfl]
  rfl

/-- A fold whose steps are never refused. -/
theorem foldlM_of_ok {α ε : Type} {f : Poly R → α → Except ε (Poly R)} {g : Poly R → α → Poly R}
    {xs : List α} (hf : ∀ p, ∀ x ∈ xs, f p x = .ok (g p x)) (p : Poly R) :
    xs.foldlM f p = .ok (xs.foldl g p) := by
  induction xs generalizing p with
  | nil => rfl
  | cons x xs ih =>
    rw [List.foldlM_cons, hf p x List.mem_cons_self]
    exact ih (fun p y hy => hf p y (List.mem_cons_of_mem _ hy)) (g p x)

theorem times_poly (p q : Poly R) : p.times (.poly R q) = .ok (p.mul q) :=
  foldlM_of_ok (fun product m _ =>
    foldlM_of_ok (fun product n _ => addProduct_eq product m n) product) empty

end Poly
end Multipoly
