import Multipoly.Poly

/-!
# Evaluation at many points

Evaluation in doubles at the rows of an array of points, one column for each variable. In a ring
of one variable the points may also be a plain list.
-/
namespace Multipoly

/-- Doubles in nested lists. -/
inductive Points where
  | entry (x : Float)
  | row (items : List Points)

namespace Points

/-- The common beginning of two shapes. -/
def meet : List Nat → List Nat → List Nat
  | m :: ms, n :: ns => if m = n then m :: meet ms ns else []
  | _, _ => []

mutual

/-- The lengths of the lists from the outermost on, as deep as lists of one depth agree. -/
def shape : Points → List Nat
  | .entry _ => []
  | .row items => items.length :: rowShape items

/-- The shape that items have in common. -/
def rowShape : List Points → List Nat
  | [] => []
  | [item] => item.shape
  | item :: next :: rest => meet item.shape (rowShape (next :: rest))

end

mutual

/-- All lists of one depth have the same length, and doubles stand at one depth only. -/
def isRegular : Points → Bool
  | .entry _ => true
  | .row items => rowIsRegular items

/-- Regular items of one shape. -/
def rowIsRegular : List Points → Bool
  | [] => true
  | [item] => item.isRegular
  | item :: next :: rest =>
    item.isRegular && item.shape == next.shape && rowIsRegular (next :: rest)

end

/-- The doubles in order. -/
def entries : Points → List Float
  | .entry x => [x]
  | .row items => items.attach.flatMap fun ⟨item, _⟩ => item.entries

/-- The items of the outermost list. -/
def items : Points → List Points
  | .entry _ => []
  | .row items => items

end Points

/-- Why the values at points were refused. -/
inductive PointsError where
  /-- Lists of one depth differ from the dimension after `shape` on. -/
  | ragged (shape : List Nat)
  | badShape (arity : Nat) (shape : List Nat)
  /-- A coefficient or a power has no double. -/
  | range (e : RangeError)
  /-- A power of a finite value is beyond the doubles. -/
  | overflow
  /-- A power of a term is longer than a word. -/
  | longPower
  deriving DecidableEq, Repr

def PointsError.message : PointsError → String
  | .ragged shape =>
    "setting an array element with a sequence. The requested array has an inhomogeneous shape " ++
      s!"after {shape.length} dimensions. " ++
      s!"The detected shape was {Text.listing (shape.map toString)} + inhomogeneous part."
  | .badShape arity shape =>
    s!"expected points of shape (n, {arity}), got {Text.listing (shape.map toString)}"
  | .range e => e.message
  | .overflow => "(34, 'Numerical result out of range')"
  | .longPower =>
    "Cannot cast ufunc 'add' output from dtype('O') to dtype('float64') " ++
      "with casting rule 'same_kind'"

namespace Poly
variable {R : PolyRing}

/-- The rows of points for a number of variables. -/
def pointRows (arity : Nat) (points : Points) : Except PointsError (List (List Float)) :=
  if points.isRegular then
    match points.shape with
    | [_, columns] =>
      if columns = arity then .ok (points.items.map (·.entries))
      else .error (.badShape arity points.shape)
    | [_] =>
      if arity = 1 then .ok (points.items.map (·.entries))
      else .error (.badShape arity points.shape)
    | _ => .error (.badShape arity points.shape)
  else .error (.ragged points.shape)

/-- The least power that is longer than a word of 64 bits. -/
def wordLimit : Nat := 0x10000000000000000

/-- Whether a term has a power longer than a word. Its values are refused, but only after its
powers of all values, which are then checked for overflow. -/
def hasLongPower (powers : Powers) : Bool := powers.any (wordLimit ≤ ·)

/-- The power of a value, where the power is a double too. -/
def powerOfValue (checked : Bool) (x : Float) (e : Nat) : Except PointsError Float := do
  let y := Float.pow x (← (Binary64.ofInt e).mapError .range)
  if checked && x.isFinite && y.isInf then throw .overflow
  return y

/-- The product of the powers of the values; anything to the power zero is one. -/
def powerProduct (xs : List Float) (powers : Powers) : Except PointsError Float :=
  (xs.zip powers).foldlM
    (fun product (x, e) => return product * (← powerOfValue (hasLongPower powers) x e)) 1.0

/-- Adds the values of a term at all points to the totals. -/
def addValues (rows : List (List Float)) (totals : List Float) (m : Monomial R) :
    Except PointsError (List Float) := do
  let c ← (Coefficient.toFloat m.coeff).mapError .range
  let products ← rows.mapM (powerProduct · m.powers)
  if hasLongPower m.powers then throw .longPower
  return List.zipWith (fun total product => total + c * product) totals products

/-- The values at all points: from zero on, the non-zero terms are added one by one. -/
def evalMany (p : Poly R) (points : Points) : Except PointsError (List Float) := do
  let rows ← pointRows R.arity points
  p.nonzero.foldlM (addValues rows) (rows.map fun _ => 0.0)

end Poly
end Multipoly
