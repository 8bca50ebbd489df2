import Multipoly.Poly

/-!
# Evaluation

The value of a polynomial in its coefficient domain. Only the variables that occur in non-zero
terms are looked up, in the order of the terms and, within a term, of the slots.
-/
namespace Multipoly

/-- Values for variables, by name or by slot. -/
inductive Env (K : Type) where
  | byName (values : List (String × K))
  | bySlot (values : List K)

/-- A variable that has no value. -/
inductive EvalError where
  | unbound (name : Char)
  | slotOutOfRange
  deriving DecidableEq, Repr

def EvalError.message : EvalError → String
  | .unbound v => s!"Variable '{v}' not in env"
  | .slotOutOfRange => "list index out of range"

namespace Env
variable {K : Type}

/-- The value of the variable `v` at `slot`. -/
def lookup (env : Env K) (v : Char) (slot : Nat) : Except EvalError K :=
  match env with
  | .byName values =>
    match values.lookup (String.ofList [v]) with
    | some x => .ok x
    | none => .error (.unbound v)
  | .bySlot values =>
    match values[slot]? with
    | some x => .ok x
    | none => .error .slotOutOfRange

end Env

/-- The positive power `x ^ e`, multiplied from the left. -/
def positivePower {K : Type} [Mul K] (x : K) (e : Nat) : K := Nat.repeat (· * x) (e - 1) x

namespace Monomial
variable {R : PolyRing}

/-- The coefficient times the powers of the values, slot by slot. -/
def eval (m : Monomial R) (env : Env R.Carrier) : Except EvalError R.Carrier :=
  (R.vars.zip m.powers).zipIdx.foldlM (fun r ((v, e), slot) =>
    if e = 0 then .ok r else return r * positivePower (← env.lookup v slot) e) m.coeff

end Monomial

/-- The sum of the values of the non-zero terms. -/
def Poly.eval {R : PolyRing} (p : Poly R) (env : Env R.Carrier) : Except EvalError R.Carrier :=
  p.nonzero.foldlM (fun total m => return total + (← m.eval env)) 0

/-- Zero terms do not matter. -/
theorem Poly.eval_eq_of_nonzero_eq {R : PolyRing} {p q : Poly R} (h : p.nonzero = q.nonzero)
    (env : Env R.Carrier) : p.eval env = q.eval env := by
  rw [eval, eval, h]

end Multipoly
