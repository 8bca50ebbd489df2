import Multipoly.Numeral

/-!
# The shortest decimal of a double

Of the decimals that round to a given double, those with the fewest significant digits, and of
these the nearest to it. The decimals that round to a double form an interval around it, which
contains its ends when the mantissa is even; on the grid of decimals with a given number of
digits, only the two neighbours of the double need to be tried.
-/
namespace Multipoly.Binary64

/-- The decimals that round to a double, in units of a quarter of its last mantissa bit: from
`low` to `high` around `value`, and the unit as a quotient. -/
structure Interval where
  low : Nat
  value : Nat
  high : Nat
  closed : Bool
  unitNum : Nat
  unitDen : Nat

/-- The interval of `mantissa * 2 ^ exponent`. Below a power of two the next double is only half
as far as above it. -/
def Interval.of (mantissa : Nat) (exponent : Int) : Interval :=
  let narrow := mantissa = hiddenBit ∧ minExponent < exponent
  { low := 4 * mantissa - if narrow then 1 else 2
    value := 4 * mantissa
    high := 4 * mantissa + 2
    closed := mantissa % 2 = 0
    unitNum := powNum 2 (exponent - 2)
    unitDen := powDen 2 (exponent - 2) }

/-- Whether `digits * 10 ^ scale` lies in the interval. -/
def Interval.contains (i : Interval) (digits : Nat) (scale : Int) : Bool :=
  let point := digits * powNum 10 scale * i.unitDen
  let low := i.low * i.unitNum * powDen 10 scale
  let high := i.high * i.unitNum * powDen 10 scale
  if i.closed then low ≤ point && point ≤ high else low < point && point < high

/-- The nearer neighbour of the double on the grid of the multiples of `10 ^ scale` that lies in
the interval; of two equally near ones the even one. -/
def Interval.onGrid (i : Interval) (scale : Int) : Option Nat :=
  let num := i.value * i.unitNum * powDen 10 scale
  let den := i.unitDen * powNum 10 scale
  let below := num / den
  match i.contains below scale, i.contains (below + 1) scale with
  | true, true => some (roundDiv num den)
  | true, false => some below
  | false, true => some (below + 1)
  | false, false => none

/-- The number of digits before the point of `num / den`: the least `k` with
`num / den < 10 ^ k`. -/
def place (num den : Nat) : Int :=
  let k : Int := ((Nat.toDigits 10 num).length : Int) - (Nat.toDigits 10 den).length
  if num * powDen 10 k < den * powNum 10 k then k else k + 1

/-- Seventeen significant digits tell any two doubles apart. -/
def maxDigits : Nat := 17

/-- The shortest decimal `digits * 10 ^ scale` of a positive double. -/
def shortestScaled (mantissa : Nat) (exponent : Int) : Nat × Int :=
  let i := Interval.of mantissa exponent
  let k := place (i.value * i.unitNum) i.unitDen
  let found := (List.range maxDigits).findSome? fun n =>
    let scale := k - (n + 1 : Nat)
    (i.onGrid scale).map (·, scale)
  found.getD (0, 0)

/-- The shortest decimal of a finite magnitude, without zeros at the end of its fraction. -/
def shortest (mantissa : Nat) (exponent : Int) : Decimal :=
  if mantissa = 0 then ⟨0, 0⟩
  else
    let (digits, scale) := shortestScaled mantissa exponent
    Decimal.trim (digits * powNum 10 scale) (-scale).toNat

/-- A double in positional notation: its shortest decimal with a sign, that of zero too. -/
def text (x : Float) : List Char :=
  match decode x with
  | .nan => ['n', 'a', 'n']
  | .infinite negative => withSign negative ['i', 'n', 'f']
  | .finite negative mantissa exponent => withSign negative (shortest mantissa exponent).text
where
  withSign (negative : Bool) (cs : List Char) : List Char := if negative then '-' :: cs else cs

end Multipoly.Binary64
