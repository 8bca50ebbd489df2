import Multipoly.Proofs.Statement

/-!
# The terms of read lines

The monomials of a reading have one power for each variable of the ring, so the polynomial of a line
is well formed.

Results:
* `Phrase.Reads.fits`: the monomials of a reading fit the ring;
* `Expr.Fits.wellFormed`: the value of an expression with such monomials is well formed;
* `Poly.WellFormed.read`: so is the polynomial of a line.
-/
namespace Multipoly
variable {R : PolyRing}

/-- All monomials of a run fit the ring. -/
def Run.Fits (ms : Run R) : Prop := ∀ f ∈ ms, f.2.Fits

/-- All monomials of an expression fit the ring. -/
def Expr.Fits : Expr R → Prop
  | run ms => ms.Fits
  | pow base _ => base.Fits
  | neg e => e.Fits
  | mul left right => left.Fits ∧ right.Fits
  | add left right => left.Fits ∧ right.Fits
  | sub left right => left.Fits ∧ right.Fits

namespace Phrase
variable {ts rest : List Token} {m : Monomial R} {ms : Run R} {e : Expr R}

theorem Unsigned.fits (h : Unsigned R ts m rest) : m.Fits := by
  cases h with
  | number _ _ => simp [Monomial.Fits, powersOf]
  | letters _ _ => simp [Monomial.Fits, powersOf]

theorem RunRest.fits (h : RunRest R ts ms rest) : ms.Fits := by
  induction h with
  | stop _ => exact fun _ hf => nomatch hf
  | next hm _ ih => exact List.forall_mem_cons.2 ⟨hm.fits, ih⟩

theorem Reads.fits {l : Level} (h : Reads R l ts e rest) : e.Fits := by
  induction h with
  | run hm h => exact List.forall_mem_cons.2 ⟨hm.fits, h.fits⟩
  | minusRun hm h => exact List.forall_mem_cons.2 ⟨hm.fits, h.fits⟩
  | neg _ _ ih => exact ih
  | group _ ih => exact ih
  | power _ _ ih => exact ih
  | factor _ ih => exact ih
  | mul _ _ ih ih' => exact ⟨ih, ih'⟩
  | product _ ih => exact ih
  | @join s _ _ _ _ _ _ _ ih ih' => cases s <;> exact ⟨ih, ih'⟩

theorem Whole.fits (h : Whole R ts e) : e.Fits := by
  cases h with
  | blank => exact fun _ hf => nomatch hf
  | sum h => exact h.fits

end Phrase

theorem Sign.wellFormed_merge {p : Poly R} {m : Monomial R} (s : Sign) (hp : p.WellFormed)
    (hm : m.Fits) : (s.merge p m).WellFormed := by
  cases s with
  | plus => exact hp.addTerm hm
  | minus => exact hp.subTerm hm

theorem Run.Fits.wellFormed {ms : Run R} (h : ms.Fits) : ms.value.WellFormed :=
  Poly.WellFormed.foldl (fun _ hp f hf => f.1.wellFormed_merge hp (h f hf)) Poly.WellFormed.empty

theorem Expr.Fits.wellFormed {e : Expr R} (h : e.Fits) : e.value.WellFormed := by
  induction e with
  | run ms => exact Run.Fits.wellFormed h
  | pow base n ih => exact (ih h).pow n
  | neg e ih => exact (ih h).neg
  | mul left right ihl ihr => exact (ihl h.1).mul (ihr h.2)
  | add left right ihl ihr => exact (ihl h.1).add (ihr h.2)
  | sub left right ihl ihr => exact (ihl h.1).sub (ihr h.2)

theorem Poly.WellFormed.read {text : List Char} {p : Poly R} (h : Poly.read R text = .ok p) :
    p.WellFormed := by
  obtain ⟨_, _, -, he, rfl⟩ := Poly.read_eq_ok_iff.1 h
  exact he.fits.wellFormed

end Multipoly
