import Multipoly.Proofs.Denotation
import Multipoly.Proofs.ParsedTerms

/-!
# The meaning of lines

What a reading says as an element of the polynomial ring, and that the polynomial of a line is it.
The meaning knows nothing of term lists: sums, products and powers are those of the ring, and a sign
in a run belongs to the monomial after it alone.

Results:
* `Monomial.denote_eq_prod`: a term is its coefficient times powers of the variables;
* `Literal.toRat_number`: the coefficient of a literal is the decimal it writes;
* `Expr.denote_value`: the value of an expression denotes its meaning;
* `Poly.read_meaning`: the polynomial of a line denotes the meaning of its only reading, and is
  equal to the well-formed polynomials that denote it and to no others.
-/
namespace Multipoly
open MvPolynomial Phrase

variable {R : PolyRing}

/-! ## Meanings -/

theorem Monomial.denote_eq_prod (m : Monomial R) :
    m.denote = C (R.domain.toRat m.coeff) * ∏ i : Fin R.arity, X i ^ m.powers.getD i 0 := by
  rw [denote, monomial_eq, Finsupp.prod_fintype _ _ fun i => pow_zero (X i)]
  rfl

theorem Literal.value_of_digits {t : List Char} (h : AllDigits t) :
    Literal.value t = Literal.natural t := by
  rw [value, whole_of_digits h, fraction_of_digits h, List.append_nil]
  simp

/-- In the exact domains an accepted literal is the number in decimal notation. -/
theorem Literal.toRat_number {d : Domain} (hd : d ≠ .real) {t : List Char} (ht : IsNumeral t)
    (h : Literal.Accepts d t) : d.toRat (Literal.number d t) = Literal.value t := by
  cases d with
  | integer =>
    rw [Literal.value_of_digits (ht.allDigits h.1)]
    rfl
  | rational => rfl
  | real => exact absurd rfl hd

/-- A value with a sign in front of it. -/
def Sign.of {K : Type} [Neg K] (s : Sign) (x : K) : K :=
  match s with
  | .plus => x
  | .minus => -x

/-- The sum of the monomials, each with its sign. -/
noncomputable def Run.meaning (ms : Run R) : MvPolynomial (Fin R.arity) ℚ :=
  (ms.map fun f => f.1.of f.2.denote).sum

/-- The element of the polynomial ring that an expression says. -/
noncomputable def Expr.meaning : Expr R → MvPolynomial (Fin R.arity) ℚ
  | run ms => ms.meaning
  | pow base n => base.meaning ^ n
  | neg e => -e.meaning
  | mul left right => left.meaning * right.meaning
  | add left right => left.meaning + right.meaning
  | sub left right => left.meaning - right.meaning

section
variable (h : R.domain ≠ .real)
include h

theorem Sign.denote_merge (s : Sign) (p : Poly R) (m : Monomial R) :
    (s.merge p m).denote = p.denote + s.of m.denote := by
  cases s with
  | plus => exact Poly.denote_addTerm h p m
  | minus => exact (Poly.denote_subTerm h p m).trans (sub_eq_add_neg _ _)

theorem Run.denote_value (ms : Run R) : ms.value.denote = ms.meaning := by
  rw [value, Poly.denote_foldl fun p f _ => f.1.denote_merge h p f.2, Poly.denote_empty, zero_add]
  rfl

/-- The polynomial computed for an expression denotes what the expression says. -/
theorem Expr.denote_value {e : Expr R} (he : e.Fits) : e.value.denote = e.meaning := by
  induction e with
  | run ms => exact Run.denote_value h ms
  | pow base n ih =>
    have hbase : base.Fits := he
    rw [value, meaning, Poly.denote_pow h hbase.wellFormed, ih hbase]
  | neg e ih => rw [value, meaning, Poly.denote_neg h, ih he]
  | mul left right ihl ihr =>
    rw [value, meaning, Poly.denote_mul h he.1.wellFormed he.2.wellFormed, ihl he.1, ihr he.2]
  | add left right ihl ihr => rw [value, meaning, Poly.denote_add h, ihl he.1, ihr he.2]
  | sub left right ihl ihr => rw [value, meaning, Poly.denote_sub h, ihl he.1, ihr he.2]

end

/-! ## Lines -/

/-- The statement of a line that is read over an exact domain has one reading, the polynomial
denotes the meaning of this reading, and the well-formed polynomials equal to it are those that
denote the meaning. -/
theorem Poly.read_meaning (h : R.domain ≠ .real) {text : List Char} {p : Poly R}
    (hp : Poly.read R text = .ok p) :
    ∃ ts e, (Line.scan alphabet text).statement = .ok ts ∧ Whole R ts e ∧
      (∀ e', Whole R ts e' → e' = e) ∧ p.denote = e.meaning ∧
      ∀ q : Poly R, q.WellFormed → (p.same q = true ↔ q.denote = e.meaning) := by
  obtain ⟨ts, e, hts, he, rfl⟩ := Poly.read_eq_ok_iff.1 hp
  have hdenote : e.value.denote = e.meaning := Expr.denote_value h he.fits
  refine ⟨ts, e, hts, he, fun e' he' => he'.unique (Line.scanned_statement hts) he, hdenote, ?_⟩
  intro q hq
  rw [same_iff_denote_eq h he.fits.wellFormed hq, hdenote]
  exact eq_comm

/-- The run `2x + y` is one factor of the product, and the sign applies to the whole group. -/
theorem Poly.read_meaning_product :
    let R : PolyRing := ⟨.integer, ['x', 'y'], by simp, by simp, by simp [alphabet]⟩
    let text := ['2', 'x', ' ', '+', ' ', 'y', ' ', '*', ' ', '-', '(', 'x', ')', '^', '2']
    let p : Poly R := ⟨[⟨(-2 : Int), [3, 0]⟩, ⟨(-1 : Int), [2, 1]⟩]⟩
    R.domain ≠ .real ∧ Poly.read R text = .ok p ∧
      ∃ ts e, (Line.scan alphabet text).statement = .ok ts ∧ Whole R ts e ∧
        (∀ e', Whole R ts e' → e' = e) ∧ p.denote = e.meaning ∧
        ∀ q : Poly R, q.WellFormed → (p.same q = true ↔ q.denote = e.meaning) := by
  intro R text p
  have hexact : R.domain ≠ .real := by decide
  have hread : Poly.read R text = .ok p := by
    cbv
  exact ⟨hexact, hread, Poly.read_meaning hexact hread⟩

end Multipoly
