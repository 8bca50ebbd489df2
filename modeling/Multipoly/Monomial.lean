import Multipoly.PolyRing

/-!
# Terms and their order

A term of a ring is a coefficient with a power vector, which has one natural power for each variable
by slot. Terms are plain data: that the vector has one power for each variable is what the
constructors here provide and what the operations keep (`Monomial.Fits`).

Terms are listed by descending degree; at equal degree the term with the higher power in the first
slot where they differ comes first.
-/
namespace Multipoly

/-! ## Power vectors -/

/-- The powers of a term by slot. -/
abbrev Powers := List Nat

namespace Powers

/-- The total degree. -/
def degree : Powers → Nat
  | [] => 0
  | p :: u => p + degree u

/-- The first slot that differs decides, the higher power coming first. A vector that ends where
another goes on comes before it. -/
def lex : Powers → Powers → Ordering
  | [], [] => .eq
  | [], _ :: _ => .lt
  | _ :: _, [] => .gt
  | a :: u, b :: v => (compare b a).then (lex u v)

/-- The order of terms: `.lt` when `u` is listed before `v`. -/
def order (u v : Powers) : Ordering := (compare v.degree u.degree).then (lex u v)

/-- A key that orders as `order` does when keys are compared componentwise from the left. -/
def sortKey (u : Powers) : Int × List Int := (-(u.degree : Int), u.map fun (p : Nat) => -(p : Int))

/-- Compares keys componentwise from the left; a list that ends where another goes on is less. -/
def compareKeys (k l : Int × List Int) : Ordering :=
  (compare k.1 l.1).then (List.compareLex compare k.2 l.2)

@[simp] theorem lex_self (u : Powers) : lex u u = .eq := by
  induction u with
  | nil => rfl
  | cons a u ih => simp [lex, ih]

@[simp] theorem order_self (u : Powers) : order u u = .eq := by simp [order]

end Powers

/-! ## Terms -/

/-- A coefficient with the powers of the variables by slot. -/
structure Monomial (R : PolyRing) where
  coeff : R.Carrier
  powers : Powers

/-- The power vector of the constant term. -/
def PolyRing.noPowers (R : PolyRing) : Powers := List.replicate R.arity 0

namespace Monomial
variable {R S : PolyRing}

/-- The term has one power for each variable of its ring. -/
def Fits (m : Monomial R) : Prop := m.powers.length = R.arity

instance (m : Monomial R) : Decidable m.Fits := inferInstanceAs (Decidable (_ = _))

/-! ## Construction -/

/-- The term with given powers, padded with zeros. Too many powers are refused before a negative
one is. -/
def ofPowers (coeff : R.Carrier) (powers : List Int) : Except RingError (Monomial R) :=
  if R.arity < powers.length then .error (.tooManyPowers powers.length R.arity)
  else
    match powers.find? (· < 0) with
    | some p => .error (.negativePower p)
    | none => .ok ⟨coeff, powers.map Int.toNat ++ List.replicate (R.arity - powers.length) 0⟩

/-- The constant term. -/
def constant (coeff : R.Carrier) : Monomial R := ⟨coeff, R.noPowers⟩

/-- The variable of a given name. -/
def ofVariable (name : String) : Except UnknownVariable (Monomial R) := do
  let slot ← R.slot name
  return ⟨1, R.noPowers.set slot 1⟩

/-! ## Properties -/

def degree (m : Monomial R) : Nat := m.powers.degree

/-- The power at a slot, zero past the last one. -/
def power (m : Monomial R) (slot : Nat) : Nat := m.powers.getD slot 0

/-- The power of the variable of a given name. -/
def degreeIn (m : Monomial R) (name : String) : Except UnknownVariable Nat :=
  (R.slot name).map m.power

def isConstant (m : Monomial R) : Bool := m.degree == 0

def isZero (m : Monomial R) : Bool := Coefficient.isZero m.coeff

def isNegative (m : Monomial R) : Bool := Coefficient.isNegative m.coeff

/-- The variables that occur, with their powers. -/
def support (m : Monomial R) : List (Char × Nat) :=
  (R.vars.zip m.powers).filter fun (_, e) => e ≠ 0

/-- Equal powers and equal coefficients, even in different rings. -/
def same (m : Monomial R) (n : Monomial S) : Bool :=
  m.powers == n.powers && Domain.sameNumber R.domain S.domain m.coeff n.coeff

/-- The order of terms, even of different rings. -/
def order (m : Monomial R) (n : Monomial S) : Ordering := m.powers.order n.powers

/-- Terms of any rings in order; terms with equal powers stay as they were. -/
def sort (ms : List ((R : PolyRing) × Monomial R)) : List ((R : PolyRing) × Monomial R) :=
  ms.mergeSort fun m n => n.2.order m.2 != .lt

/-! ## Arithmetic -/

/-- Multiplies the coefficient by `k` on its right. -/
def scale (m : Monomial R) (k : R.Carrier) : Monomial R := { m with coeff := m.coeff * k }

/-- Multiplies the coefficient by `k` on its left. -/
def scaleLeft (k : R.Carrier) (m : Monomial R) : Monomial R := { m with coeff := k * m.coeff }

def neg (m : Monomial R) : Monomial R := { m with coeff := Coefficient.negate m.coeff }

/-- The product; one whose coefficient is zero is the constant term. -/
def mul (m n : Monomial R) : Monomial R :=
  let coeff := m.coeff * n.coeff
  if Coefficient.isZero coeff then constant coeff
  else ⟨coeff, List.zipWith (· + ·) m.powers n.powers⟩

/-- A term of a ring as a term of an equal ring. -/
def cast (h : S = R) (m : Monomial S) : Monomial R := h ▸ m

@[simp] theorem cast_rfl (m : Monomial R) : m.cast rfl = m := rfl

/-- The product of terms of any two rings, which exists when the rings are equal. -/
def mulAny (m : Monomial R) (n : Monomial S) : Except RingError (Monomial R) :=
  if h : S = R then .ok (m.mul (n.cast h)) else .error (.foreignFactor R S)

/-! ## Text -/

/-- A variable with its power; the power one is not written. -/
def powerText (v : Char) (e : Nat) : List Char :=
  if e = 0 then [] else if e = 1 then [v] else v :: '^' :: Nat.toDigits 10 e

/-- The variables that occur, with their powers. -/
def variablesText (m : Monomial R) : List Char :=
  (R.vars.zip m.powers).flatMap fun (v, e) => powerText v e

/-- The term without its sign. The magnitude one is not written before a variable. -/
def magnitudeText (m : Monomial R) : List Char :=
  let magnitude := Coefficient.absolute m.coeff
  let letters := m.variablesText
  if letters ≠ [] ∧ Coefficient.isOne magnitude then letters
  else Coefficient.text magnitude ++ letters

/-- The term with its sign; a zero term is written too. -/
def text (m : Monomial R) : List Char :=
  if m.isNegative then '-' :: m.magnitudeText else m.magnitudeText

/-- The text of the term, unless one of its numbers is too long. -/
def write (m : Monomial R) : Except Oversized (List Char) := Numeral.written m.text

end Monomial
end Multipoly
