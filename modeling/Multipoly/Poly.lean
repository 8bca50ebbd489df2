import Multipoly.Monomial

/-!
# Polynomials

A polynomial is the list of its terms in the order of `Powers.order`, no two with equal powers.
A term enters through `addTerm` or `subTerm`, which merge it with the term of equal powers if
there is one. Terms whose coefficients cancel stay in the list; equality, text and evaluation
look past them, and `prune` drops them.

Results:
* `Poly.same_self`: in the exact domains a polynomial equals its copies;
* `Poly.mem_nonzero`, `Poly.nonzero_nonzero`: which terms are kept;
* `Poly.isZero_iff_nonzero_eq_nil`: a polynomial is zero when no term is kept;
* `Poly.text_eq_of_nonzero_eq`, `Poly.degree_eq_of_nonzero_eq`, ...: what depends on them alone.
-/
namespace Multipoly

/-- Terms of a ring. -/
structure Poly (R : PolyRing) where
  terms : List (Monomial R)

/-- A place past the last term of a polynomial. -/
structure NoSuchTerm where
  index : Nat

def NoSuchTerm.message (_ : NoSuchTerm) : String := "list index out of range"

/-- The place in the interval from `lo` to `hi` up to which `before` holds, when it holds up to some
place and not from there on. -/
def bisect (before : Nat → Bool) (lo hi : Nat) : Nat :=
  if lo < hi then
    let mid := (lo + hi) / 2
    if before mid then bisect before (mid + 1) hi else bisect before lo mid
  else lo
termination_by hi - lo

namespace Poly
variable {R S : PolyRing}

/-- Each term is listed before the next. -/
def Ordered (p : Poly R) : Prop :=
  p.terms.Pairwise fun m n => m.order n = .lt

/-! ## Merging a term -/

/-- The terms after merging one with powers `u`: `join` changes the coefficient of the term that
has these powers, and `fresh` is the coefficient of a new term. -/
def merge (join : R.Carrier → R.Carrier) (fresh : R.Carrier) (u : Powers) :
    List (Monomial R) → List (Monomial R)
  | [] => [⟨fresh, u⟩]
  | m :: ms =>
    match u.order m.powers with
    | .lt => ⟨fresh, u⟩ :: m :: ms
    | .eq => { m with coeff := join m.coeff } :: ms
    | .gt => m :: merge join fresh u ms

def addTerm (p : Poly R) (m : Monomial R) : Poly R :=
  ⟨merge (· + m.coeff) m.coeff m.powers p.terms⟩

def subTerm (p : Poly R) (m : Monomial R) : Poly R :=
  ⟨merge (· - m.coeff) (Coefficient.negate m.coeff) m.powers p.terms⟩

/-! ## Looking terms up

The place of a term among the terms of a polynomial is found by halving an interval of places. The
key of the term is computed once and compared with the keys at the places that are tried. -/

/-- The first place whose term is not listed before `m`, and whether its term has the key of `m`. -/
def locate (p : Poly R) (m : Monomial R) : Nat × Bool :=
  let key := m.powers.sortKey
  let keyAt (i : Nat) : Option (Int × List Int) := (p.terms[i]?).map (·.powers.sortKey)
  let pos := bisect (fun i => (keyAt i).any (Powers.compareKeys · key == .lt)) 0 p.terms.length
  (pos, keyAt pos == some key)

/-- Merges a term at its place: the coefficient that stands there is joined, or a term with the
coefficient `fresh` is put in. -/
def mergeAt (join : R.Carrier → R.Carrier) (fresh : R.Carrier) (p : Poly R) (m : Monomial R) :
    Poly R :=
  match p.locate m with
  | (pos, true) => ⟨p.terms.modify pos fun n => { n with coeff := join n.coeff }⟩
  | (pos, false) => ⟨p.terms.insertIdx pos ⟨fresh, m.powers⟩⟩

/-! ## Construction -/

def empty : Poly R := ⟨[]⟩

/-- Merges terms one after the other. -/
def ofTerms (ms : List (Monomial R)) : Poly R := ms.foldl addTerm empty

def constant (k : R.Carrier) : Poly R := ⟨[Monomial.constant k]⟩

def one : Poly R := constant 1

def ofVariable (name : String) : Except UnknownVariable (Poly R) :=
  (Monomial.ofVariable name).map fun m => ⟨[m]⟩

/-! ## Arithmetic -/

def add (p q : Poly R) : Poly R := q.terms.foldl addTerm p

def sub (p q : Poly R) : Poly R := q.terms.foldl subTerm p

/-- Multiplies every coefficient by `k` on its right; zero terms keep their powers. -/
def scale (p : Poly R) (k : R.Carrier) : Poly R := ⟨p.terms.map (·.scale k)⟩

/-- Multiplies every coefficient by `k` on its left. -/
def scaleLeft (k : R.Carrier) (p : Poly R) : Poly R := ⟨p.terms.map (·.scaleLeft k)⟩

/-- The multiple by minus one. -/
def neg (p : Poly R) : Poly R := p.scale (Coefficient.negate 1)

/-- Merges the products of all pairs of terms, those of the first term of `p` first. -/
def mul (p q : Poly R) : Poly R :=
  p.terms.foldl (fun product m => q.terms.foldl (fun product n => product.addTerm (m.mul n)) product)
    empty

/-- The `n`-fold product, multiplied from the left; `one` when `n` is zero. -/
def pow (p : Poly R) : Nat → Poly R
  | 0 => one
  | n + 1 => Nat.repeat (·.mul p) n p

/-- The power with an integer exponent, which must not be negative. -/
def powInt (p : Poly R) : Int → Except RingError (Poly R)
  | .ofNat n => .ok (p.pow n)
  | e => .error (.negativeExponent e)

/-! ## Properties -/

/-- The term at a place, zero terms counted. -/
def get (p : Poly R) (index : Nat) : Except NoSuchTerm (Monomial R) :=
  (p.terms[index]?).elim (.error ⟨index⟩) .ok

/-- The terms whose coefficients are not zero. -/
def nonzero (p : Poly R) : List (Monomial R) := p.terms.filter (!·.isZero)

/-- Drops the zero terms. -/
def prune (p : Poly R) : Poly R := ⟨p.nonzero⟩

def isZero (p : Poly R) : Bool := p.terms.all (·.isZero)

def isConstant (p : Poly R) : Bool := p.nonzero.all (·.isConstant)

def degree (p : Poly R) : Nat := (p.nonzero.map (·.degree)).foldl max 0

/-- The highest power of a variable. A polynomial without terms does not look the variable up. -/
def degreeIn (p : Poly R) (name : String) : Except UnknownVariable Nat := do
  let powers ← p.nonzero.mapM (·.degreeIn name)
  return powers.foldl max 0

/-- Equal rings and equal non-zero terms. A term whose coefficient is not a number differs from
every term, so such a polynomial differs from its copies. -/
def same (p : Poly R) (q : Poly S) : Bool :=
  R == S && sameTerms p.nonzero q.nonzero
where
  sameTerms : List (Monomial R) → List (Monomial S) → Bool
    | [], [] => true
    | m :: ms, n :: ns => m.same n && sameTerms ms ns
    | _, _ => false

theorem sameTerms_self (h : R.domain ≠ .real) (ms : List (Monomial R)) :
    same.sameTerms ms ms = true := by
  induction ms with
  | nil => rfl
  | cons m ms ih => simp [same.sameTerms, Monomial.same, Domain.sameNumber_self h, ih]

/-- In the exact domains a polynomial has the same value as its copies. -/
theorem same_self (h : R.domain ≠ .real) (p : Poly R) : p.same p = true := by
  simp [same, sameTerms_self h]

/-- What a polynomial is compared with: itself, or another polynomial of any ring. -/
inductive Comparand where
  | itself
  | other (S : PolyRing) (q : Poly S)

/-- A polynomial equals itself whatever its coefficients are; another one is compared by value. -/
def equals (p : Poly R) : Comparand → Bool
  | .itself => true
  | .other _ q => p.same q

/-! ## Text -/

/-- The terms after the first one, each with its sign between spaces. -/
def restText (ms : List (Monomial R)) : List Char :=
  ms.flatMap fun m => ' ' :: (if m.isNegative then '-' else '+') :: ' ' :: m.magnitudeText

/-- The non-zero terms with their signs; nothing when there is none. -/
def text (p : Poly R) : List Char :=
  match p.nonzero with
  | [] => []
  | m :: ms => m.text ++ restText ms

/-- The text of the polynomial, unless one of its numbers is too long. -/
def write (p : Poly R) : Except Oversized (List Char) := Numeral.written p.text

/-! ## Looking past zero terms

What a polynomial shows of itself is computed from its non-zero terms alone. Two polynomials with the
same non-zero terms therefore agree in all of it, and `prune` changes nothing of it. -/

variable {p q : Poly R}

theorem mem_nonzero {m : Monomial R} : m ∈ p.nonzero ↔ m ∈ p.terms ∧ ¬ m.isZero = true := by
  rw [nonzero, List.mem_filter, Bool.not_eq_true', Bool.not_eq_true]

theorem nonzero_nonzero (p : Poly R) : nonzero ⟨p.nonzero⟩ = p.nonzero :=
  List.filter_eq_self.2 fun _ hm => (List.mem_filter.1 hm).2

theorem isZero_iff_nonzero_eq_nil : p.isZero = true ↔ p.nonzero = [] := by
  rw [isZero, nonzero, List.all_eq_true, List.filter_eq_nil_iff]
  simp

section
variable (hnonzero : p.nonzero = q.nonzero)
include hnonzero

theorem text_eq_of_nonzero_eq : p.text = q.text := by
  rw [text, text, hnonzero]

theorem isZero_eq_of_nonzero_eq : p.isZero = q.isZero := by
  rw [Bool.eq_iff_iff, isZero_iff_nonzero_eq_nil, isZero_iff_nonzero_eq_nil, hnonzero]

theorem isConstant_eq_of_nonzero_eq : p.isConstant = q.isConstant := by
  rw [isConstant, isConstant, hnonzero]

theorem degree_eq_of_nonzero_eq : p.degree = q.degree := by
  rw [degree, degree, hnonzero]

theorem degreeIn_eq_of_nonzero_eq (name : String) : p.degreeIn name = q.degreeIn name := by
  rw [degreeIn, degreeIn, hnonzero]

end

end Poly
end Multipoly
