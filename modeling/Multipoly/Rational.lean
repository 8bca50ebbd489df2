import Multipoly.Numeral

/-!
# Exact rational numbers

Texts, powers, quotients and doubles of rational numbers. A rational number is an exact decimal
when no prime other than 2 and 5 divides its denominator.
-/
namespace Multipoly.Rational

/-! ## Quotients and powers -/

/-- Why a quotient or a power does not exist. -/
inductive DivisionError where
  /-- The quotient by zero. -/
  | byZero
  /-- A negative power of zero, which has the denominator zero. -/
  | zeroDenominator (numerator : Int)
  deriving DecidableEq, Repr

def DivisionError.message : DivisionError → String
  | .byZero => "division by zero"
  | .zeroDenominator n => s!"Fraction({n}, 0)"

def div (a b : Rat) : Except DivisionError Rat :=
  if b = 0 then .error .byZero else .ok (a / b)

/-- The power `a ^ n` by repeated squaring. -/
def powNat (a : Rat) (n : Nat) : Rat :=
  if _h : n = 0 then 1
  else
    let even := powNat (a * a) (n / 2)
    if n % 2 = 0 then even else a * even
termination_by n
decreasing_by exact Nat.div_lt_self (Nat.pos_of_ne_zero _h) (by decide)

/-- Powers with an integer exponent; anything to the power zero is one. -/
def pow (a : Rat) : Int → Except DivisionError Rat
  | .ofNat n => .ok (powNat a n)
  | .negSucc n => if a = 0 then .error (.zeroDenominator 1) else .ok (powNat a⁻¹ (n + 1))

/-- The double nearest to `a`. -/
def toFloat (a : Rat) : Except RangeError Float :=
  match Binary64.ofRatio? (a.num < 0) a.num.natAbs a.den with
  | some x => .ok x
  | none => .error .quotient

/-! ## Terminating decimals -/

/-- How often `p` divides `n`, and what is left of `n`. -/
def factorOut (p n : Nat) : Nat × Nat :=
  if _h : 1 < p ∧ 0 < n ∧ n % p = 0 then
    let (count, rest) := factorOut p (n / p)
    (count + 1, rest)
  else (0, n)
termination_by n
decreasing_by exact Nat.div_lt_self _h.2.1 _h.1

/-- The fewest decimal places in which `1 / n` is exact, if there are any. -/
def places? (n : Nat) : Option Nat :=
  let (twos, rest) := factorOut 2 n
  let (fives, rest) := factorOut 5 rest
  if rest = 1 then some (max twos fives) else none

/-- The magnitude of `a` as an exact decimal. -/
def decimal? (a : Rat) : Option Decimal :=
  (places? a.den).map fun places => ⟨a.num.natAbs * Nat.pow 10 places / a.den, places⟩

/-! ## Texts -/

/-- An integer in decimal digits. -/
def intText (n : Int) : List Char :=
  if n < 0 then '-' :: Nat.toDigits 10 n.natAbs else Nat.toDigits 10 n.natAbs

/-- The exact decimal of `a`, if it has one. -/
def decimalText? (a : Rat) : Option (List Char) :=
  (decimal? a).map fun d => if a.num < 0 then '-' :: d.text else d.text

/-- The quotient in lowest terms; an integer stands alone. -/
def text (a : Rat) : List Char :=
  if a.den = 1 then intText a.num else intText a.num ++ '/' :: Nat.toDigits 10 a.den

/-- The exact decimal where there is one, else the quotient. -/
def display (a : Rat) : List Char := (decimalText? a).getD (text a)

/-- The numerator and the denominator, named for inspection. -/
def inspect (a : Rat) : String := s!"Rational({a.num}, {a.den})"

end Multipoly.Rational
