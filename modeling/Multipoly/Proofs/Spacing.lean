import Multipoly.Proofs.Respelling
import Multipoly.Proofs.Tracking

/-!
# Spacing

The blanks of a line are read past, so lines with the same tokens have the same polynomial, or are
rejected for the same reason at the same token. Only the cursor of the rejection may differ.

Results:
* `Line.statement_congr`: lines with the same tokens have the same statement;
* `Place.refused_unique`: a walk through the same tokens is refused with the same complaint;
* `Poly.read_spacing`: lines with the same tokens are answered alike, and a line whose tokens are
  written with other blanks between them has the same tokens.
-/
namespace Multipoly
open Place

/-! ## Answers -/

namespace ParseError

/-- The family of the cause, none for an exponent that is too long. -/
def kind : ParseError → Option CauseKind
  | rejected r => some r.cause.kind
  | oversized _ => none

def message : ParseError → String
  | rejected r => r.cause.message
  | oversized e => e.message

end ParseError

/-- The same terms, or errors of the same family with the same message. -/
def Poly.SameAnswer {R : PolyRing} : Except ParseError (Poly R) → Except ParseError (Poly R) → Prop
  | .ok p, .ok q => p.terms = q.terms
  | .error e, .error e' => e.kind = e'.kind ∧ e.message = e'.message
  | _, _ => False

/-- A complaint says the same wherever it is made. -/
theorem Complaint.same_error (c : Complaint) (line line' : List Char) (i i' : Nat) :
    (c.error line i).kind = (c.error line' i').kind ∧
      (c.error line i).message = (c.error line' i').message := by
  cases c <;> exact ⟨rfl, rfl⟩

/-! ## Lines with the same tokens -/

theorem Place.refused_unique {R : PolyRing} {p q q' : Place} {c c' : Complaint}
    {pre pre' post post' : List Token} {t t' : Token} (hwalk : p.walk R pre = .ok q)
    (hstep : q.step R t = .error c) (hwalk' : p.walk R pre' = .ok q')
    (hstep' : q'.step R t' = .error c') (heq : pre ++ t :: post = pre' ++ t' :: post') :
    c = c' := by
  have h : p.walk R (pre ++ t :: post) = .error c :=
    (walk_append hwalk).trans (walk_cons_of_error hstep)
  rw [heq, walk_append hwalk', walk_cons_of_error hstep'] at h
  exact (Except.error.inj h).symm

namespace Line
variable {l l' : Line}

theorem statement_congr (hf : l.fault = none) (hf' : l'.fault = none)
    (h : tokensOf l.lexemes = tokensOf l'.lexemes) : l.statement = l'.statement := by
  unfold statement
  rw [hf, hf', h]

theorem tokensOf_eq_of_sequence_eq (hf : l.fault = none) (hf' : l'.fault = none)
    (h : l.sequence = l'.sequence) : tokensOf l.lexemes = tokensOf l'.lexemes := by
  rw [sequence_of_fault hf, sequence_of_fault hf'] at h
  exact List.append_cancel_right h

end Line

namespace Poly
variable {R : PolyRing} {text text' : List Char}

section
variable (hf : (Line.scan alphabet text).fault = none)
  (hf' : (Line.scan alphabet text').fault = none)
  (h : (Line.scan alphabet text).sequence = (Line.scan alphabet text').sequence)
include hf hf' h

theorem read_of_sequence_eq {p : Poly R} (hp : read R text = .ok p) : read R text' = .ok p := by
  have hstatement := Line.statement_congr hf hf' (Line.tokensOf_eq_of_sequence_eq hf hf' h)
  rw [read_eq_ok_iff, hstatement] at hp
  exact read_eq_ok_iff.2 hp

theorem sameAnswer_of_sequence_eq : SameAnswer (read R text) (read R text') := by
  cases hread : read R text with
  | ok p =>
    rw [read_of_sequence_eq hf hf' h hread]
    exact rfl
  | error e =>
    cases hread' : read R text' with
    | ok p =>
      rw [read_of_sequence_eq hf' hf h.symm hread'] at hread
      cases hread
    | error e' =>
      obtain ⟨pre, t, post, q, c, i, hpre, hwalk, hstep, rfl, -⟩ := exists_refused_of_read hread hf
      obtain ⟨pre', t', post', q', c', i', hpre', hwalk', hstep', rfl, -⟩ :=
        exists_refused_of_read hread' hf'
      have heq : pre ++ t :: post = pre' ++ t' :: post' := hpre.symm.trans (h.trans hpre')
      obtain rfl := refused_unique hwalk hstep hwalk' hstep' heq
      exact c.same_error _ _ _ _

end

/-- A line of recognised characters is answered as every other one with the same tokens; and its
tokens written with any blanks between them, and perhaps at either end, are scanned as the same
tokens, so such a line is answered alike. -/
theorem read_spacing (R : PolyRing) (h : ∀ c ∈ text, Token.Recognised alphabet c) :
    (∀ text', (∀ c ∈ text', Token.Recognised alphabet c) →
      (Line.scan alphabet text).sequence = (Line.scan alphabet text').sequence →
      SameAnswer (read R text) (read R text')) ∧
    ∀ text', Line.Respells (Line.tokensOf (Line.scan alphabet text).lexemes) text' →
      (Line.scan alphabet text').sequence = (Line.scan alphabet text).sequence ∧
      SameAnswer (read R text) (read R text') := by
  have hf := Line.fault_eq_none_iff.2 h
  refine ⟨fun text' h' => sameAnswer_of_sequence_eq hf (Line.fault_eq_none_iff.2 h'), ?_⟩
  intro text' hrespells
  obtain ⟨hf', htokens⟩ := Line.sequence_of_respells hrespells (Line.spelled_lexemes alphabet text)
  have hsequence : (Line.scan alphabet text').sequence = (Line.scan alphabet text).sequence := by
    rw [Line.sequence_of_fault hf', Line.sequence_of_fault hf, htokens]
  exact ⟨hsequence, sameAnswer_of_sequence_eq hf hf' hsequence.symm⟩

/-- `2.5x-` and ` 2.5 \tx - ` end where an operand is due, at different cursors. -/
theorem read_spacing_blanks :
    let R : PolyRing := ⟨.rational, ['x'], by simp, by simp, by simp [alphabet]⟩
    let text := ['2', '.', '5', 'x', '-']
    let text' := [' ', '2', '.', '5', ' ', '\t', 'x', ' ', '-', ' ']
    (∀ c ∈ text, Token.Recognised alphabet c) ∧
      Line.Respells (Line.tokensOf (Line.scan alphabet text).lexemes) text' ∧
      SameAnswer (read R text) (read R text') ∧
      read R text = .error (.rejected ⟨.noOperand, 5, text⟩) ∧
      read R text' = .error (.rejected ⟨.noOperand, 10, text'⟩) := by
  intro R text text'
  have h : ∀ c ∈ text, Token.Recognised alphabet c := Line.fault_eq_none_iff.1 (by cbv)
  have htokens : Line.tokensOf (Line.scan alphabet text).lexemes =
      [.number ['2', '.', '5'], .letter 'x', .mark .minus] := by cbv
  have hrespells : Line.Respells (Line.tokensOf (Line.scan alphabet text).lexemes) text' := by
    rw [htokens]
    have hend : Line.Apart [.mark .minus] ['-', ' '] :=
      @Line.Apart.cons _ _ [' '] _ (by decide) (fun _ => List.cons_ne_nil _ _) .nil
    have hletter : Line.Apart [.letter 'x', .mark .minus] ['x', ' ', '-', ' '] :=
      @Line.Apart.cons _ _ [' '] _ (by decide) (fun _ => List.cons_ne_nil _ _) hend
    exact ⟨[' '], _, by decide, rfl,
      @Line.Apart.cons _ _ [' ', '\t'] _ (by decide) (fun _ => List.cons_ne_nil _ _) hletter⟩
  obtain ⟨-, hanswer⟩ := (read_spacing R h).2 text' hrespells
  exact ⟨h, hrespells, hanswer, by cbv, by cbv⟩

end Poly
end Multipoly
