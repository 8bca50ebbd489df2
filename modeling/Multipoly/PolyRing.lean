import Multipoly.Coefficient

/-!
# Polynomial rings

A coefficient domain with an ordered list of variables. The place of a variable in the list, its
slot, is its place in every power vector, and slots break ties in the order of terms.

* `PolyRing.ofNames_vars`: a ring that is granted has the variables that were asked for.
-/
namespace Multipoly

/-- The letters that may name a variable. -/
def alphabet : List Char := ['x', 'y', 'z', 'w', 'u', 'v', 's', 't']

/-- The most variables that a ring may have. -/
def maxVariables : Nat := 8

/-- A coefficient domain with distinct variables of the alphabet, at least one. -/
structure PolyRing where
  domain : Domain
  vars : List Char
  vars_ne_nil : vars ≠ []
  nodup : vars.Nodup
  mem_alphabet : ∀ v ∈ vars, v ∈ alphabet
  deriving DecidableEq

/-- Why a ring, a term or a power was refused. The texts name rings as `PolyRing.text` does. -/
inductive RingError where
  | variableCount (count : Nat)
  | duplicateVariables (names : List String)
  | badVariable (name : String)
  | tooManyPowers (given : Nat) (arity : Nat)
  | negativePower (power : Int)
  | negativeExponent (exponent : Int)
  /-- A term of `term` was to be merged into a polynomial of `ring`. -/
  | foreignTerm (term ring : PolyRing)
  /-- Terms of two rings were to be multiplied. -/
  | foreignFactor (left right : PolyRing)

/-- A variable that a ring does not have. -/
structure UnknownVariable where
  name : String
  ring : PolyRing

/-- A slot past the last variable of a ring. -/
structure NoSuchSlot where
  slot : Nat

namespace PolyRing

/-- The coefficients of a ring. -/
abbrev Carrier (R : PolyRing) : Type := R.domain.Carrier

/-- The number of variables. -/
def arity (R : PolyRing) : Nat := R.vars.length

/-- The symbol of the domain and the variables in brackets. -/
def text (R : PolyRing) : String :=
  R.domain.symbol ++ "[" ++ ",".intercalate (R.vars.map String.singleton) ++ "]"

/-- Real polynomials in `x`, `y` and `z`. -/
def standard : PolyRing := ⟨.real, ['x', 'y', 'z'], by simp, by simp, by simp [alphabet]⟩

/-- The slot of a variable, if the ring has it. -/
def slot? (R : PolyRing) (v : Char) : Option Nat := R.vars.idxOf? v

/-- The variable at a slot. -/
def symbol (R : PolyRing) (slot : Nat) : Except NoSuchSlot Char :=
  (R.vars[slot]?).elim (.error ⟨slot⟩) .ok

/-- The slot of the variable with a given name. -/
def slot (R : PolyRing) (name : String) : Except UnknownVariable Nat :=
  match name.toList with
  | [v] => (R.slot? v).elim (.error ⟨name, R⟩) .ok
  | _ => .error ⟨name, R⟩

/-- The variables of a ring are the letters that have a slot. -/
theorem exists_slot_iff (R : PolyRing) {v : Char} :
    (∃ slot, R.slot? v = some slot) ↔ v ∈ R.vars := by
  rw [← Option.isSome_iff_exists, slot?, List.isSome_idxOf?]

theorem exists_slot_of_mem {R : PolyRing} {v : Char} (hv : v ∈ R.vars) :
    ∃ i : Fin R.arity, R.slot (String.ofList [v]) = .ok (i : Nat) := by
  obtain ⟨i, hi⟩ := R.exists_slot_iff.2 hv
  refine ⟨⟨i, (List.idxOf?_eq_some_iff.1 hi).1⟩, ?_⟩
  unfold slot
  rw [String.toList_ofList]
  dsimp only
  rw [hi]
  rfl

/-! ## Rings from names -/

/-- The variable that a name stands for. -/
def letter (name : String) : Except RingError Char :=
  match name.toList with
  | [c] => if c ∈ alphabet then .ok c else .error (.badVariable name)
  | _ => .error (.badVariable name)

/-- The variables that names stand for; the first name that is none is refused. -/
def letters : List String → Except RingError (List Char)
  | [] => .ok []
  | name :: names => do return (← letter name) :: (← letters names)

theorem letter_eq_ok {name : String} {c : Char} (h : letter name = .ok c) :
    name = String.ofList [c] ∧ c ∈ alphabet := by
  unfold letter at h
  split at h
  · rename_i d hd
    split at h
    · cases h
      exact ⟨by rw [← hd, String.ofList_toList], by assumption⟩
    · cases h
  · cases h

theorem letters_eq_ok {names : List String} {cs : List Char} (h : letters names = .ok cs) :
    names = cs.map (fun c => String.ofList [c]) ∧ ∀ c ∈ cs, c ∈ alphabet := by
  induction names generalizing cs with
  | nil => cases h; simp
  | cons name names ih =>
    simp only [letters] at h
    cases hc : letter name with
    | error e => rw [hc] at h; cases h
    | ok c =>
      cases hs : letters names with
      | error e => rw [hc, hs] at h; cases h
      | ok ds =>
        rw [hc, hs] at h
        cases h
        obtain ⟨hn, hm⟩ := letter_eq_ok hc
        obtain ⟨hns, hms⟩ := ih hs
        exact ⟨by simp [hn, hns], by simpa using ⟨hm, hms⟩⟩

theorem nodup_letters {names : List String} {cs : List Char} (h : letters names = .ok cs)
    (hn : names.Nodup) : cs.Nodup := by
  rw [(letters_eq_ok h).1, List.Nodup, List.pairwise_map] at hn
  exact hn.imp fun hab heq => hab (by rw [heq])

theorem letters_ne_nil {names : List String} {cs : List Char} (h : letters names = .ok cs)
    (hn : names ≠ []) : cs ≠ [] := by
  intro hc
  rw [hc] at h
  exact hn (by simpa using (letters_eq_ok h).1)

/-- The ring with the given variables. Their number is looked at first, then whether two are
equal, then each name. -/
def ofNames (domain : Domain) (names : List String) : Except RingError PolyRing :=
  if hcount : names = [] ∨ maxVariables < names.length then
    .error (.variableCount names.length)
  else if hdup : names.Nodup then
    match h : letters names with
    | .error e => .error e
    | .ok cs => .ok
      { domain
        vars := cs
        vars_ne_nil := letters_ne_nil h (fun hn => hcount (.inl hn))
        nodup := nodup_letters h hdup
        mem_alphabet := (letters_eq_ok h).2 }
  else .error (.duplicateVariables names)

theorem ofNames_vars {domain : Domain} {names : List String} {R : PolyRing}
    (h : ofNames domain names = .ok R) :
    R.domain = domain ∧ R.vars.map String.singleton = names := by
  unfold ofNames at h
  split at h
  · cases h
  · split at h
    · split at h
      · cases h
      · rename_i cs hs
        cases h
        refine ⟨rfl, ((letters_eq_ok hs).1.trans (List.map_congr_left fun c _ => ?_)).symm⟩
        exact String.singleton_eq_ofList.symm
    · cases h

end PolyRing

/-! ## Messages -/

def RingError.message : RingError → String
  | .variableCount n => s!"a ring needs between 1 and {maxVariables} variables, got {n}"
  | .duplicateVariables names => s!"duplicate variables in {Text.listing (names.map Text.quote)}"
  | .badVariable name =>
    s!"variable {Text.quote name} is not one of {Text.quote (String.ofList alphabet)}"
  | .tooManyPowers given arity => s!"{given} powers given for a ring with {arity} variables"
  | .negativePower p => s!"powers must be non-negative integers, got {p}"
  | .negativeExponent e => s!"Exponent must be a non-negative integer, got {e}"
  | .foreignTerm term ring => s!"term of {term.text} does not belong to {ring.text}"
  | .foreignFactor left right => s!"cannot multiply terms of {left.text} and {right.text}"

def UnknownVariable.message (e : UnknownVariable) : String :=
  s!"Variable '{e.name}' not in ring {e.ring.text}"

def NoSuchSlot.message (_ : NoSuchSlot) : String := "tuple index out of range"

end Multipoly
