/-!
# Doubles as exact numbers

A double is decoded from its bits into sign, mantissa and exponent of two, and a quotient of
naturals is rounded to the nearest double, ties to the even mantissa. All arithmetic is exact, on
naturals and integers.
-/
namespace Multipoly.Binary64

/-! ## Fields -/

/-- Width of the fraction field. -/
def fractionWidth : Nat := 52

/-- Exponent of two of the least positive double. -/
def minExponent : Int := -1074

/-- Bits of positive infinity. Larger bits, up to the sign, are not-a-number. -/
def infinityBits : Nat := 0x7ff0000000000000

/-- The sign bit. -/
def signBit : Nat := 0x8000000000000000

/-- The leading bit of a mantissa, just above the fraction field, which is not stored. -/
def hiddenBit : Nat := 0x10000000000000

/-- What the bits of a double say. -/
inductive Value where
  | nan
  | infinite (negative : Bool)
  /-- The number `mantissa * 2 ^ exponent`, with a sign that zero has too. -/
  | finite (negative : Bool) (mantissa : Nat) (exponent : Int)

/-- Decodes the 63 bits below the sign of a finite double. -/
def magnitude (bits : Nat) : Nat × Int :=
  let fraction := bits % hiddenBit
  let field := bits / hiddenBit
  if field = 0 then (fraction, minExponent)
  else (hiddenBit + fraction, minExponent + (field - 1 : Nat))

def decode (x : Float) : Value :=
  let bits := x.toBits.toNat
  let negative := signBit ≤ bits
  let bits := bits % signBit
  if infinityBits < bits then .nan
  else if bits = infinityBits then .infinite negative
  else
    let (mantissa, exponent) := magnitude bits
    .finite negative mantissa exponent

/-- The double whose bits below the sign are `bits`. -/
def ofMagnitude (negative : Bool) (bits : Nat) : Float :=
  Float.ofBits (UInt64.ofNat (if negative then signBit + bits else bits))

/-! ## Scaling -/

/-- Numerator of `base ^ e`. -/
def powNum (base : Nat) (e : Int) : Nat := base.pow e.toNat

/-- Denominator of `base ^ e`. -/
def powDen (base : Nat) (e : Int) : Nat := base.pow (-e).toNat

/-- The exact value of a finite double. -/
def toRat? (x : Float) : Option Rat :=
  match decode x with
  | .finite negative m e =>
    let n : Int := m * powNum 2 e
    some (mkRat (if negative then -n else n) (powDen 2 e))
  | _ => none

/-! ## Rounding -/

/-- The natural nearest to `num / den`, ties to even. -/
def roundDiv (num den : Nat) : Nat :=
  let q := num / den
  let r := num % den
  if 2 * r < den then q
  else if den < 2 * r then q + 1
  else q + q % 2

/-- The largest `e` with `2 ^ e ≤ num / den`, for positive `num` and `den`. -/
def log2Ratio (num den : Nat) : Int :=
  let e : Int := (num.log2 : Int) - den.log2
  if den * powNum 2 e ≤ num * powDen 2 e then e else e - 1

/-- The bits of the double nearest to `num / den`, ties to even. They reach `infinityBits` when
the quotient is out of range: a mantissa that rounds up to the next power of two carries into the
exponent field by itself. -/
def bitsOfRatio (num den : Nat) : Nat :=
  if num = 0 then 0
  else
    let e := max (log2Ratio num den - fractionWidth) minExponent
    let m := roundDiv (num * powDen 2 e) (den * powNum 2 e)
    (e - minExponent).toNat * hiddenBit + m

/-- The double nearest to the signed quotient, unless it is out of range. -/
def ofRatio? (negative : Bool) (num den : Nat) : Option Float :=
  let bits := bitsOfRatio num den
  if infinityBits ≤ bits then none else some (ofMagnitude negative bits)

/-- The double nearest to a decimal `±digits * 10 ^ scale`, infinite when out of range. Far from
the range of exponents the answer is known without computing the power of ten. -/
def ofDecimal (negative : Bool) (digits : Nat) (scale : Int) : Float :=
  let place : Int := (Nat.toDigits 10 digits).length + scale
  if digits = 0 ∨ place < -400 then ofMagnitude negative 0
  else if 400 < place then ofMagnitude negative infinityBits
  else
    ofMagnitude negative
      (min infinityBits (bitsOfRatio (digits * powNum 10 scale) (powDen 10 scale)))

end Multipoly.Binary64
