import Multipoly.Binary64
import Multipoly.Text

/-!
# Numbers in text

How numbers are read from free text and how positional decimals are written.

Three grammars over decimal digits of any script, where single underscores may stand between two
digits of a run:

* integer: `[sign] run`;
* fraction: `[sign] run '/' run`, or `[sign]` and a decimal, in which letters `d` may hold the place
  of the digits after the point: such a text has the form of a fraction, but no value;
* real: `[sign]` and a decimal, or `[sign]` and the name of infinity or not-a-number.

A decimal is `run ['.' [run]] [exponent]` or `'.' run [exponent]`. White space may surround the
number, never stand inside. A run that is converted to an integer holds at most `digitLimit`
digits.

Integers are written up to the same number of digits, where zeros in front of a number do not count.
-/
namespace Multipoly

/-! ## The digit limit -/

/-- The most digits of an integer that is read or written. -/
def digitLimit : Nat := 4300

/-- A text with a number that is too long to be written. -/
structure Oversized where
  deriving DecidableEq, Repr

def Oversized.message (_ : Oversized) : String :=
  s!"Exceeds the limit ({digitLimit} digits) for integer string conversion; " ++
    "use sys.set_int_max_str_digits() to increase the limit"

/-! ## Faults -/

/-- Why a text does not denote a number of the kind asked for. -/
inductive NumeralError where
  | notInteger (text : List Char)
  | notFraction (text : List Char)
  | notReal (text : List Char)
  /-- A point stands in a text that should be an integer literal. -/
  | pointInInteger (text : List Char)
  /-- The literal denotes no finite double. -/
  | notFinite (text : List Char)
  /-- A run of `count` digits is longer than the limit. -/
  | tooManyDigits (count : Nat)
  | zeroDenominator (numerator : Int)
  deriving DecidableEq, Repr

/-- How much of a quoted text is shown when it is no integer. -/
def shownLength : Nat := 200

def NumeralError.message : NumeralError → String
  | .notInteger t =>
    "invalid literal for int() with base 10: " ++
      String.ofList ((Text.quoted t).take shownLength)
  | .notFraction t => s!"Invalid literal for Fraction: {quoteChars t}"
  | .notReal t => s!"could not convert string to float: {quoteChars t}"
  | .pointInInteger t => s!"decimal literal {String.ofList t} is not an integer"
  | .notFinite t => s!"literal {String.ofList t} is out of floating point range"
  | .tooManyDigits n =>
    s!"Exceeds the limit ({digitLimit} digits) for integer string conversion: " ++
      s!"value has {n} digits; use sys.set_int_max_str_digits() to increase the limit"
  | .zeroDenominator n => s!"Fraction({n}, 0)"
where
  quoteChars (t : List Char) : String := String.ofList (Text.quoted t)

/-- Why an exact number has no double near it. -/
inductive RangeError where
  | integer
  | quotient
  deriving DecidableEq, Repr

def RangeError.message : RangeError → String
  | .integer => "int too large to convert to float"
  | .quotient => "integer division result too large for a float"

namespace Numeral

/-! ## Numbers that are written -/

/-- The length of the longest number of a text that goes on a number of `current` digits. -/
def longestFrom (current : Nat) : List Char → Nat
  | [] => current
  | c :: cs =>
    if c.isDigit then longestFrom (if current = 0 ∧ c = '0' then 0 else current + 1) cs
    else max current (longestFrom 0 cs)

/-- The most digits that a number in a text has, zeros in front of it not counted. -/
def longest (cs : List Char) : Nat := longestFrom 0 cs

/-- A text, unless one of its numbers is too long. -/
def written (cs : List Char) : Except Oversized (List Char) :=
  if longest cs ≤ digitLimit then .ok cs else .error {}

theorem written_eq_ok_iff {cs ds : List Char} :
    written cs = .ok ds ↔ longest cs ≤ digitLimit ∧ cs = ds := by
  unfold written
  split
  · simp_all
  · exact ⟨fun h => (nomatch h), fun h => absurd h.1 ‹_›⟩

/-! ## Decimal digits of all scripts

Each script has ten of them in a row, from its zero on. -/

/-- The code points of the zeros, in increasing order. -/
def zeros : List Nat :=
  [0x30, 0x660, 0x6f0, 0x7c0, 0x966, 0x9e6, 0xa66, 0xae6, 0xb66, 0xbe6, 0xc66, 0xce6, 0xd66,
   0xde6, 0xe50, 0xed0, 0xf20, 0x1040, 0x1090, 0x17e0, 0x1810, 0x1946, 0x19d0, 0x1a80, 0x1a90,
   0x1b50, 0x1bb0, 0x1c40, 0x1c50, 0xa620, 0xa8d0, 0xa900, 0xa9d0, 0xa9f0, 0xaa50, 0xabf0,
   0xff10, 0x104a0, 0x10d30, 0x11066, 0x110f0, 0x11136, 0x111d0, 0x112f0, 0x11450, 0x114d0,
   0x11650, 0x116c0, 0x11730, 0x118e0, 0x11950, 0x11c50, 0x11d50, 0x11da0, 0x16a60, 0x16ac0,
   0x16b50, 0x1d7ce, 0x1d7d8, 0x1d7e2, 0x1d7ec, 0x1d7f6, 0x1e140, 0x1e2f0, 0x1e950, 0x1fbf0]

/-- The value of a decimal digit of any script. -/
def digitValue? (c : Char) : Option Nat :=
  (zeros.find? fun start => start ≤ c.toNat && c.toNat < start + 10).map (c.toNat - ·)

/-- The number written by the digit values `ds`, most significant first. -/
def ofDigits (ds : List Nat) : Nat := ds.foldl (fun n d => 10 * n + d) 0

@[simp] theorem ofDigits_nil : ofDigits [] = 0 := rfl

/-! ## Runs of digits -/

/-- Skips an underscore that a digit follows. -/
def skipJoint : List Char → List Char
  | '_' :: c :: cs => if (digitValue? c).isSome then c :: cs else '_' :: c :: cs
  | cs => cs

theorem length_skipJoint_le (cs : List Char) : (skipJoint cs).length ≤ cs.length := by
  unfold skipJoint
  split
  · split <;> simp
  · exact Nat.le_refl _

/-- The digit values of the longest run at the head of a text, and the text after it. -/
def run : List Char → List Nat × List Char
  | [] => ([], [])
  | c :: cs =>
    match digitValue? c with
    | none => ([], c :: cs)
    | some d =>
      let (ds, rest) := run (skipJoint cs)
      (d :: ds, rest)
termination_by cs => cs.length
decreasing_by exact Nat.lt_succ_of_le (length_skipJoint_le cs)

/-- The number that a run denotes, refused when the run is too long. -/
def runValue (ds : List Nat) : Except NumeralError Nat :=
  if ds.length ≤ digitLimit then .ok (ofDigits ds) else .error (.tooManyDigits ds.length)

/-- Whether the text has a minus sign, and the text after its sign. -/
def sign : List Char → Bool × List Char
  | '-' :: cs => (true, cs)
  | '+' :: cs => (false, cs)
  | cs => (false, cs)

/-- `n` with a sign. -/
def signed (negative : Bool) (n : Nat) : Int := if negative then -n else n

/-! ## Integers -/

/-- Reads an integer. A run that is too long is refused before what follows it is looked at. -/
def readInt (text : List Char) : Except NumeralError Int := do
  let (negative, cs) := sign (text.dropWhile Text.isSpacing)
  let (ds, rest) := run cs
  if ds.isEmpty || rest.head? == some '_' then throw (.notInteger text)
  let n ← runValue ds
  unless rest.all Text.isSpacing do throw (.notInteger text)
  return signed negative n

/-! ## Decimals -/

/-- A decimal as written: whole digits, fraction digits, and the exponent of ten with its
sign. Absent parts are empty. -/
structure Scientific where
  whole : List Nat
  fraction : List Nat
  negativeExponent : Bool
  exponent : List Nat

/-- The exponent at the head of a text; no digits when there is none. -/
def scanExponent (cs : List Char) : Bool × List Nat × List Char :=
  match cs with
  | 'e' :: rest | 'E' :: rest =>
    let (negative, rest) := sign rest
    match run rest with
    | ([], _) => (false, [], cs)
    | (ds, rest) => (negative, ds, rest)
  | _ => (false, [], cs)

/-- The decimal at the head of a text, and the text after it. -/
def scanDecimal (cs : List Char) : Option (Scientific × List Char) :=
  let (whole, rest) := run cs
  let (fraction, rest) := match rest with
    | '.' :: r => run r
    | r => ([], r)
  if whole.isEmpty && fraction.isEmpty then none
  else
    let (negativeExponent, exponent, rest) := scanExponent rest
    some (⟨whole, fraction, negativeExponent, exponent⟩, rest)

/-! ## Fractions -/

/-- `numerator / denominator`, refused when the denominator is zero. -/
def quotient (numerator denominator : Int) : Except NumeralError Rat :=
  if denominator = 0 then .error (.zeroDenominator numerator)
  else .ok (Rat.divInt numerator denominator)

/-- The exact value of a decimal. -/
def Scientific.toRat (d : Scientific) : Except NumeralError Rat := do
  let whole ← runValue d.whole
  let fraction ← runValue d.fraction
  let exponent ← runValue d.exponent
  let unit := Nat.pow 10 d.fraction.length
  let power := Nat.pow 10 exponent
  let digits := whole * unit + fraction
  if d.negativeExponent then return mkRat digits (unit * power)
  else return mkRat (digits * power) unit

/-- Whether `c` may hold the place of a digit after the point. -/
def isPlaceholder (c : Char) : Bool := c == 'd' || c == 'D'

/-- The letters that hold the place of digits in `run '.' letters [exponent]`, if the text has
this form. -/
def placeholders? (cs : List Char) : Option (List Char) :=
  match run cs with
  | (_ :: _, '.' :: rest) =>
    let letters := rest.takeWhile isPlaceholder
    let (_, _, rest) := scanExponent (rest.dropWhile isPlaceholder)
    if letters ≠ [] ∧ rest.all Text.isBlank then some letters else none
  | _ => none

/-- Refuses a text whose value is asked for although letters hold the place of digits. -/
def refusePlaceholders (cs : List Char) : Except NumeralError Unit :=
  match placeholders? cs with
  | some letters => do
    let _ ← runValue (run cs).1
    throw (.notInteger letters)
  | none => .ok ()

/-- Reads a fraction. -/
def readFraction (text : List Char) : Except NumeralError Rat := do
  let (negative, cs) := sign (text.dropWhile Text.isBlank)
  refusePlaceholders cs
  match run cs with
  | (ds@(_ :: _), '/' :: rest) =>
    let (es, rest) := run rest
    if es.isEmpty || !rest.all Text.isBlank then throw (.notFraction text)
    quotient (signed negative (← runValue ds)) (← runValue es)
  | _ =>
    match scanDecimal cs with
    | some (d, rest) =>
      unless rest.all Text.isBlank do throw (.notFraction text)
      let q ← d.toRat
      return if negative then -q else q
    | none => throw (.notFraction text)

/-! ## Real numbers -/

/-- The double nearest to a decimal. -/
def Scientific.toFloat (negative : Bool) (d : Scientific) : Float :=
  let exponent := signed d.negativeExponent (ofDigits d.exponent)
  Binary64.ofDecimal negative (ofDigits (d.whole ++ d.fraction))
    (exponent - d.fraction.length)

/-- The bits of a not-a-number. -/
def nanBits : Nat := 0x7ff8000000000000

/-- The double that a name stands for. -/
def named? (negative : Bool) (name : String) : Option Float :=
  if name = "inf" ∨ name = "infinity" then
    some (Binary64.ofMagnitude negative Binary64.infinityBits)
  else if name = "nan" then some (Binary64.ofMagnitude negative nanBits)
  else none

/-- Reads a real number; infinities and not-a-number are among its answers. -/
def readReal (text : List Char) : Except NumeralError Float :=
  let (negative, cs) := sign (text.dropWhile Text.isSpacing)
  match scanDecimal cs with
  | some (d, rest) =>
    if rest.all Text.isSpacing then .ok (d.toFloat negative) else .error (.notReal text)
  | none =>
    let (name, rest) := cs.span Char.isAlpha
    match named? negative (String.ofList (name.map Char.toLower)) with
    | some x => if rest.all Text.isSpacing then .ok x else .error (.notReal text)
    | none => .error (.notReal text)

end Numeral

/-! ## Positional decimals

A natural number of units in a given decimal place, written with a point and without an exponent. -/

/-- The number `digits / 10 ^ places`. -/
structure Decimal where
  digits : Nat
  places : Nat
  deriving DecidableEq, Repr

namespace Decimal

/-- How many units of the last place make one. -/
def unit (d : Decimal) : Nat := Nat.pow 10 d.places

/-- Drops the zeros at the end of the fraction. -/
def trim (digits : Nat) : Nat → Decimal
  | 0 => ⟨digits, 0⟩
  | places + 1 => if digits % 10 = 0 then trim (digits / 10) places else ⟨digits, places + 1⟩

/-- Exactly `width` digits of `n`, which has no more. -/
def padded (width n : Nat) : List Char := (Nat.toDigits 10 n).leftpad width '0'

/-- The whole part without superfluous zeros and, unless there are no places, a point and one
digit for each place. -/
def text (d : Decimal) : List Char :=
  let whole := Nat.toDigits 10 (d.digits / d.unit)
  if d.places = 0 then whole
  else whole ++ '.' :: padded d.places (d.digits % d.unit)

end Decimal

end Multipoly
