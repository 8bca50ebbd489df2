import Multipoly.Proofs.Outcome

/-!
# Places in a line

A machine that takes the tokens of a line one at a time. It knows which kind of token it has just
taken and how many parentheses are open, and nothing else; it refuses the first token that no
polynomial can go on with, and says what is wrong with it.

* `Place.step`: what each token does at each place;
* `Place.walk_append`: a walk over tokens, in parts.
-/
namespace Multipoly

/-- What an error says, wherever it is found. -/
inductive Complaint where
  | rejected (cause : Cause)
  | oversized (e : NumeralError)

/-- The error with a complaint about a line, at a cursor. -/
def Complaint.error (line : List Char) (position : Nat) : Complaint → ParseError
  | rejected cause => .rejected ⟨cause, position, line⟩
  | oversized e => .oversized e

/-- What the token before the cursor was. -/
inductive Spot where
  /-- Only line breaks were taken, so the line may still be blank. -/
  | start
  /-- An opening parenthesis, or an operator between operands. -/
  | operand
  /-- A minus sign in front of an operand. -/
  | negated
  /-- A literal, or the exponent of a letter. -/
  | digits
  | letter
  /-- A caret behind a letter, or behind a group. -/
  | caret (grouped : Bool)
  /-- A closing parenthesis. -/
  | closed
  /-- The exponent of a group. -/
  | raised
  /-- The end of the statement. -/
  | past
  deriving DecidableEq, Repr

/-- Where the machine stands: the last token and the number of open parentheses. -/
structure Place where
  spot : Spot
  depth : Nat
  deriving DecidableEq, Repr

namespace Place
variable (R : PolyRing)

/-! ## Steps -/

/-- A letter of a monomial. -/
def letter (d : Nat) (v : Char) : Except Complaint Place :=
  if v ∈ R.vars then .ok ⟨.letter, d⟩ else .error (.rejected (.unknownVariable v R.vars))

/-- The first token of an operand. -/
def operand (d : Nat) (t : Token) : Except Complaint Place :=
  match t with
  | .number ds =>
    match (Coefficient.ofLiteral ds : Except NumeralError R.Carrier) with
    | .ok _ => .ok ⟨.digits, d⟩
    | .error e => .error (.rejected (.badLiteral ds R.domain e))
  | .letter v => letter R d v
  | .mark .opening => .ok ⟨.operand, d + 1⟩
  | .mark .minus => .ok ⟨.negated, d⟩
  | .finish | .newline => .error (.rejected .noOperand)
  | .mark .closing | .mark .period => .error (.rejected (.unexpected t))
  | .mark m => .error (.rejected (.noLeftOperand m))

/-- An exponent. -/
def exponent (grouped : Bool) (d : Nat) (t : Token) : Except Complaint Place :=
  match t with
  | .number ds =>
    if '.' ∈ ds then .error (.rejected (.noExponent t))
    else
      match Numeral.readInt ds with
      | .ok _ => .ok ⟨if grouped then .raised else .digits, d⟩
      | .error e => .error (.oversized e)
  | _ => .error (.rejected (.noExponent t))

/-- The token after a complete operand. -/
def goOn (d : Nat) (t : Token) : Except Complaint Place :=
  match t, d with
  | .mark .plus, d | .mark .minus, d | .mark .star, d => .ok ⟨.operand, d⟩
  | .mark .closing, d + 1 => .ok ⟨.closed, d⟩
  | .finish, 0 | .newline, 0 => .ok ⟨.past, 0⟩
  | t, 0 => .error (.rejected (.trailing t))
  | _, _ + 1 => .error (.rejected .unclosed)

/-- Takes a token. -/
def step : Place → Token → Except Complaint Place
  | ⟨.start, d⟩, .newline => .ok ⟨.start, d⟩
  | ⟨.start, d⟩, .finish => .ok ⟨.past, d⟩
  | ⟨.start, d⟩, t | ⟨.operand, d⟩, t => operand R d t
  | ⟨.negated, d⟩, t => if t.endsLine then .error (.rejected .danglingMinus) else operand R d t
  | ⟨.digits, d⟩, .letter v | ⟨.letter, d⟩, .letter v => letter R d v
  | ⟨.letter, d⟩, .mark .caret => .ok ⟨.caret false, d⟩
  | ⟨.closed, d⟩, .mark .caret => .ok ⟨.caret true, d⟩
  | ⟨.digits, d⟩, t | ⟨.letter, d⟩, t | ⟨.closed, d⟩, t | ⟨.raised, d⟩, t => goOn d t
  | ⟨.caret grouped, d⟩, t => exponent grouped d t
  | ⟨.past, d⟩, _ => .ok ⟨.past, d⟩

/-- The place before the first token. -/
def initial : Place := ⟨.start, 0⟩

/-- Takes tokens one after the other. -/
def walk (p : Place) (ts : List Token) : Except Complaint Place := ts.foldlM (step R) p

/-- The token ends the line right after a minus sign in front of an operand. -/
def Dangles (p : Place) (t : Token) : Prop := p.spot = .negated ∧ t.endsLine = true

variable {R} {p q : Place} {t : Token} {ts us : List Token} {d : Nat}

theorem letter_of_mem {v : Char} (hv : v ∈ R.vars) : letter R d v = .ok ⟨.letter, d⟩ := if_pos hv

theorem letter_of_notMem {v : Char} (hv : v ∉ R.vars) :
    letter R d v = .error (.rejected (.unknownVariable v R.vars)) := if_neg hv

theorem operand_of_ok {ds : List Char} {c : R.Carrier} (h : Coefficient.ofLiteral ds = .ok c) :
    operand R d (.number ds) = .ok ⟨.digits, d⟩ := by
  simp only [operand, h]

theorem operand_of_error {ds : List Char} {e : NumeralError}
    (h : (Coefficient.ofLiteral ds : Except NumeralError R.Carrier) = .error e) :
    operand R d (.number ds) = .error (.rejected (.badLiteral ds R.domain e)) := by
  simp only [operand, h]

section
variable {ds : List Char} {grouped : Bool}

theorem exponent_of_point (h : '.' ∈ ds) :
    exponent grouped d (.number ds) = .error (.rejected (.noExponent (.number ds))) := if_pos h

theorem exponent_of_ok {n : Int} (h : '.' ∉ ds) (hn : Numeral.readInt ds = .ok n) :
    exponent grouped d (.number ds) = .ok ⟨if grouped then .raised else .digits, d⟩ := by
  simp only [exponent, if_neg h, hn]

theorem exponent_of_error {e : NumeralError} (h : '.' ∉ ds) (he : Numeral.readInt ds = .error e) :
    exponent grouped d (.number ds) = .error (.oversized e) := by
  simp only [exponent, if_neg h, he]

end

theorem step_digits (h : ∀ v, t ≠ .letter v) : step R ⟨.digits, d⟩ t = goOn d t := by
  cases t with
  | letter v => exact absurd rfl (h v)
  | _ => rfl

theorem step_letter (h : ∀ v, t ≠ .letter v) (hcaret : t ≠ .mark .caret) :
    step R ⟨.letter, d⟩ t = goOn d t := by
  cases t with
  | letter v => exact absurd rfl (h v)
  | mark m => cases m <;> first | rfl | exact absurd rfl hcaret
  | _ => rfl

theorem step_closed (hcaret : t ≠ .mark .caret) : step R ⟨.closed, d⟩ t = goOn d t := by
  cases t with
  | mark m => cases m <;> first | rfl | exact absurd rfl hcaret
  | _ => rfl

/-! ## Walks -/

@[simp] theorem walk_nil : p.walk R [] = .ok p := rfl

theorem walk_cons (h : p.step R t = .ok q) : p.walk R (t :: ts) = q.walk R ts := by
  rw [walk, List.foldlM_cons, h]
  rfl

theorem walk_cons_of_error {c : Complaint} (h : p.step R t = .error c) :
    p.walk R (t :: ts) = .error c := by
  rw [walk, List.foldlM_cons, h]
  rfl

theorem walk_append (h : p.walk R ts = .ok q) : p.walk R (ts ++ us) = q.walk R us := by
  rw [walk, List.foldlM_append]
  change (p.walk R ts >>= fun q => q.walk R us) = _
  rw [h]
  rfl

theorem walk_singleton (h : p.step R t = .ok q) : p.walk R [t] = .ok q := walk_cons h

/-- What was taken before a walk that ends somewhere led somewhere. -/
theorem exists_walk_of_append (h : p.walk R (ts ++ us) = .ok q) : ∃ q', p.walk R ts = .ok q' := by
  rw [walk, List.foldlM_append] at h
  change (p.walk R ts >>= fun q => q.walk R us) = _ at h
  cases hts : p.walk R ts with
  | error c => rw [hts] at h; cases h
  | ok q' => exact ⟨q', rfl⟩

theorem walk_past (h : p.spot = .past) (ts : List Token) : p.walk R ts = .ok p := by
  induction ts with
  | nil => rfl
  | cons t ts ih =>
    have hstep : p.step R t = .ok p := by
      obtain ⟨spot, d⟩ := p
      cases h
      rfl
    rw [walk_cons hstep, ih]

end Place
end Multipoly
