import Multipoly.Proofs.Respelling
import Multipoly.Proofs.Tracking

/-!
# Where lines are rejected

A line is rejected at its first token that no accepted line has after the same tokens, and the kind
of the error depends only on that token, on the last tokens before it and on whether a parenthesis
is open. From every place of the machine some tokens lead to the end of the line, so the tokens it
takes can be completed to an accepted line, and those it refuses cannot.

Results:
* `Place.Describes.walk`: what the tokens taken so far are like at each place;
* `Place.completable`: from every place some tokens lead to the end of the line;
* `Refused.unique`: the kind is determined;
* `Poly.viable_iff_walk`: which tokens are the start of an accepted line;
* `Poly.read_earliest`: which token a line is rejected at, with which kind of error and where.
-/
namespace Multipoly
open Place

/-! ## The tokens before a place

All of these take the tokens with the last one first. -/

namespace Taken

/-- An operand must start: no token but line breaks was taken, or the last one is an operator or an
opening parenthesis. -/
def operandDue : List Token → Bool
  | [] | .newline :: _ | .mark .opening :: _ | .mark .plus :: _ | .mark .minus :: _
  | .mark .star :: _ => true
  | _ => false

/-- The last token is a minus sign in front of an operand. -/
def prefixMinus : List Token → Bool
  | .mark .minus :: us => operandDue us
  | _ => false

/-- The last token is a caret. -/
def afterCaret : List Token → Bool
  | .mark .caret :: _ => true
  | _ => false

/-- The last token is the last one of a complete operand. -/
def complete : List Token → Bool
  | .number _ :: _ | .letter _ :: _ | .mark .closing :: _ => true
  | _ => false

/-- A variable goes on with the last operand: it is a monomial, not a group and its exponent. -/
def letterGoesOn : List Token → Bool
  | .letter _ :: _ => true
  | .number _ :: .mark .caret :: .mark .closing :: _ => false
  | .number _ :: _ => true
  | _ => false

/-- So many parentheses are open. -/
def Open (d : Nat) (us : List Token) : Prop :=
  us.count (.mark .opening) = us.count (.mark .closing) + d

/-- A parenthesis is open. -/
def inside (us : List Token) : Bool :=
  us.count (.mark .closing) < us.count (.mark .opening)

end Taken
open Taken

/-- The kind of the error when a token is refused after the tokens `us`, the last one first. -/
inductive Refused (R : PolyRing) (us : List Token) : Token → CauseKind → Prop
  /-- An operator or an equals sign stands where an operand must start. -/
  | operator {k : Mark} (h : operandDue us = true)
      (hk : k ∈ [.plus, .star, .slash, .caret, .equal]) : Refused R us (.mark k) .structural
  /-- The line ends where an operand must start. -/
  | ended {t : Token} (h : operandDue us = true) (hminus : prefixMinus us = false)
      (ht : t.endsLine = true) : Refused R us t .expected
  /-- The line ends after a minus sign in front of an operand. -/
  | dangling {t : Token} (h : prefixMinus us = true) (ht : t.endsLine = true) :
      Refused R us t .structural
  /-- A closing parenthesis or a point stands where an operand must start. -/
  | stray {k : Mark} (h : operandDue us = true) (hk : k ∈ [.closing, .period]) :
      Refused R us (.mark k) .unexpected
  /-- The ring refuses the literal that starts an operand. -/
  | literal {ds : List Char} {e : NumeralError} (h : operandDue us = true)
      (he : (Coefficient.ofLiteral ds : Except NumeralError R.Carrier) = .error e) :
      Refused R us (.number ds) .unexpected
  /-- The ring does not have the variable that starts an operand or goes on with a monomial. -/
  | variable {v : Char} (h : operandDue us = true ∨ letterGoesOn us = true) (hv : v ∉ R.vars) :
      Refused R us (.letter v) .unexpected
  /-- No integer follows a caret. -/
  | exponent {t : Token} (h : afterCaret us = true) : Refused R us t .expected
  /-- Inside parentheses a token goes on with no complete operand. -/
  | unclosed {t : Token} (h : complete us = true)
      (hletter : ∀ v, t = .letter v → letterGoesOn us = false)
      (hinside : inside us = true) : Refused R us t .expected
  /-- Outside parentheses a token goes on with no complete operand. -/
  | trailing {t : Token} (h : complete us = true)
      (hletter : ∀ v, t = .letter v → letterGoesOn us = false)
      (hinside : inside us = false) : Refused R us t .structural

namespace Taken
variable {us : List Token}

theorem Open.cons {d : Nat} {t : Token} (h : Open d us) (ho : t ≠ .mark .opening)
    (hc : t ≠ .mark .closing) : Open d (t :: us) := by
  rw [Open, List.count_cons_of_ne ho, List.count_cons_of_ne hc]
  exact h

theorem Open.opening {d : Nat} (h : Open d us) : Open (d + 1) (.mark .opening :: us) := by
  rw [Open, List.count_cons_self, List.count_cons_of_ne (by decide), h]
  rfl

theorem Open.closing {d : Nat} (h : Open (d + 1) us) : Open d (.mark .closing :: us) := by
  rw [Open, List.count_cons_self, List.count_cons_of_ne (by decide), h]
  omega

section
variable (hus : ∀ u ∈ us, u = .newline)
include hus

theorem open_of_newlines : Open 0 us := by
  have hzero : ∀ m, us.count (.mark m) = 0 := fun m =>
    List.count_eq_zero_of_not_mem fun hmem => nomatch hus _ hmem
  rw [Open, hzero, hzero]

theorem operandDue_of_newlines : operandDue us = true := by
  cases us with
  | nil => rfl
  | cons u us => rw [hus u List.mem_cons_self]; rfl

theorem prefixMinus_of_newlines : prefixMinus us = false := by
  cases us with
  | nil => rfl
  | cons u us => rw [hus u List.mem_cons_self]; rfl

end

theorem letterGoesOn_number {ds : List Char} (h : operandDue us = true) :
    letterGoesOn (.number ds :: us) = true := by
  cases us with
  | nil => rfl
  | cons t us =>
    cases t with
    | mark m => cases m <;> first | rfl | cases h
    | _ => rfl

theorem letterGoesOn_exponent {ds : List Char} {t : Token} (h : t ≠ .mark .closing) :
    letterGoesOn (.number ds :: .mark .caret :: t :: us) = true := by
  cases t with
  | mark m => cases m <;> first | rfl | exact absurd rfl h
  | _ => rfl

theorem complete_of_letterGoesOn (h : letterGoesOn us = true) : complete us = true := by
  unfold letterGoesOn at h
  split at h <;> first | rfl | cases h

theorem not_due_of_complete (h : complete us = true) :
    ¬ operandDue us = true ∧ ¬ afterCaret us = true := by
  unfold complete at h
  split at h <;> first | exact ⟨Bool.false_ne_true, Bool.false_ne_true⟩ | cases h

theorem not_due_of_afterCaret (h : afterCaret us = true) : ¬ operandDue us = true := by
  unfold afterCaret at h
  split at h <;> first | exact Bool.false_ne_true | cases h

theorem prefixMinus_minus (h : complete us = true) : prefixMinus (.mark .minus :: us) = false := by
  cases us with
  | nil => cases h
  | cons t us =>
    cases t with
    | mark m => cases m <;> first | rfl | cases h
    | _ => first | rfl | cases h

theorem prefixMinus_of_complete (h : complete us = true) : prefixMinus us = false := by
  unfold prefixMinus
  split
  · cases h
  · rfl

theorem Open.inside {d : Nat} (h : Open d us) : inside us = decide (0 < d) := by
  unfold Taken.inside
  rw [h]
  exact decide_eq_decide.2 (by omega)

theorem operandDue_of_prefixMinus (h : prefixMinus us = true) : operandDue us = true := by
  unfold prefixMinus at h
  split at h
  · rfl
  · cases h

end Taken

/-- The kind of the error, told from the tokens alone. -/
def refusalKind (us : List Token) (t : Token) : CauseKind :=
  if operandDue us then
    match t with
    | .number _ | .letter _ | .mark .closing | .mark .period => .unexpected
    | .mark _ => .structural
    | .finish | .newline => if prefixMinus us then .structural else .expected
  else if afterCaret us then .expected
  else
    match t, letterGoesOn us with
    | .letter _, true => .unexpected
    | _, _ => if inside us then .expected else .structural

theorem refusalKind_of_endsLine {us : List Token} {t : Token} (h : operandDue us = true)
    (ht : t.endsLine = true) :
    refusalKind us t = if prefixMinus us then .structural else .expected := by
  unfold refusalKind
  rw [if_pos h]
  cases t with
  | finish => rfl
  | newline => rfl
  | _ => cases ht

theorem refusalKind_of_complete {us : List Token} {t : Token} (h : complete us = true)
    (hletter : ∀ v, t = .letter v → letterGoesOn us = false) :
    refusalKind us t = if inside us then .expected else .structural := by
  obtain ⟨hdue, hcaret⟩ := not_due_of_complete h
  unfold refusalKind
  rw [if_neg hdue, if_neg hcaret]
  cases t with
  | letter v => rw [hletter v rfl]
  | _ => rfl

theorem Refused.kind_eq {R : PolyRing} {us : List Token} {t : Token} {kind : CauseKind}
    (h : Refused R us t kind) : kind = refusalKind us t := by
  cases h with
  | @operator k h hk =>
    unfold refusalKind
    rw [if_pos h]
    cases k <;> first | rfl | exact absurd hk (by decide)
  | ended h hminus ht => rw [refusalKind_of_endsLine h ht, hminus]; rfl
  | dangling h ht => rw [refusalKind_of_endsLine (operandDue_of_prefixMinus h) ht, h]; rfl
  | @stray k h hk =>
    unfold refusalKind
    rw [if_pos h]
    cases k <;> first | rfl | exact absurd hk (by decide)
  | literal h he => exact (if_pos h).symm
  | «variable» h hv =>
    by_cases hdue : operandDue us = true
    · unfold refusalKind
      rw [if_pos hdue]
    · have hgoesOn := h.resolve_left hdue
      obtain ⟨-, hcaret⟩ := not_due_of_complete (complete_of_letterGoesOn hgoesOn)
      unfold refusalKind
      rw [if_neg hdue, if_neg hcaret, hgoesOn]
  | exponent h =>
    unfold refusalKind
    rw [if_neg (not_due_of_afterCaret h), if_pos h]
  | unclosed h hletter hinside => rw [refusalKind_of_complete h hletter, hinside]; rfl
  | trailing h hletter hinside => rw [refusalKind_of_complete h hletter, hinside]; rfl

/-- The clauses exclude each other, except where they name the same kind. -/
theorem Refused.unique {R : PolyRing} {us : List Token} {t : Token} {k k' : CauseKind}
    (h : Refused R us t k) (h' : Refused R us t k') : k = k' :=
  h.kind_eq.trans h'.kind_eq.symm

namespace Place
variable {R : PolyRing} {p q : Place} {t : Token} {ts us : List Token} {d : Nat} {c : Complaint}

/-! ## What was taken -/

/-- What the tokens are like that lead to a place, the last one first. -/
def Describes : Place → List Token → Prop
  | ⟨.past, _⟩, _ => True
  | ⟨.start, d⟩, us => d = 0 ∧ ∀ u ∈ us, u = .newline
  | ⟨.operand, d⟩, us => Open d us ∧ operandDue us = true ∧ prefixMinus us = false
  | ⟨.negated, d⟩, us => Open d us ∧ prefixMinus us = true
  | ⟨.digits, d⟩, us => Open d us ∧ letterGoesOn us = true
  | ⟨.letter, d⟩, us => Open d us ∧ ∃ v vs, us = .letter v :: vs
  | ⟨.caret grouped, d⟩, us =>
    Open d us ∧ ∃ u vs, us = .mark .caret :: u :: vs ∧ (grouped = true ↔ u = .mark .closing)
  | ⟨.closed, d⟩, us => Open d us ∧ ∃ vs, us = .mark .closing :: vs
  | ⟨.raised, d⟩, us =>
    Open d us ∧ ∃ ds vs, us = .number ds :: .mark .caret :: .mark .closing :: vs

section
variable (hopen : Open d us)
include hopen

theorem describes_letter {v : Char} (h : letter R d v = .ok q) : q.Describes (.letter v :: us) := by
  unfold letter at h
  split at h
  · cases h
    exact ⟨hopen.cons nofun nofun, v, us, rfl⟩
  · cases h

theorem describes_operand (hdue : operandDue us = true) (h : operand R d t = .ok q) :
    q.Describes (t :: us) := by
  cases t with
  | number ds =>
    cases hread : (Coefficient.ofLiteral ds : Except NumeralError R.Carrier) with
    | error e => rw [operand_of_error hread] at h; cases h
    | ok k =>
      rw [operand_of_ok hread] at h
      cases h
      exact ⟨hopen.cons nofun nofun, letterGoesOn_number hdue⟩
  | letter v => exact describes_letter hopen h
  | mark m =>
    cases m with
    | opening => cases h; exact ⟨hopen.opening, rfl, rfl⟩
    | minus => cases h; exact ⟨hopen.cons nofun nofun, hdue⟩
    | _ => cases h
  | _ => cases h

theorem describes_goOn (hcomplete : complete us = true) (h : goOn d t = .ok q) :
    q.Describes (t :: us) := by
  cases t with
  | mark m =>
    cases m with
    | plus => cases h; exact ⟨hopen.cons nofun nofun, rfl, rfl⟩
    | minus => cases h; exact ⟨hopen.cons nofun nofun, rfl, prefixMinus_minus hcomplete⟩
    | star => cases h; exact ⟨hopen.cons nofun nofun, rfl, rfl⟩
    | closing =>
      cases d with
      | zero => cases h
      | succ d => cases h; exact ⟨hopen.closing, us, rfl⟩
    | _ => cases d <;> cases h
  | number ds => cases d <;> cases h
  | letter v => cases d <;> cases h
  | finish => cases d <;> cases h; trivial
  | newline => cases d <;> cases h; trivial

/-- An exponent. -/
theorem describes_exponent {grouped : Bool} {u : Token} {vs : List Token}
    (hus : us = .mark .caret :: u :: vs) (hgrouped : grouped = true ↔ u = .mark .closing)
    (h : exponent grouped d t = .ok q) : q.Describes (t :: us) := by
  unfold exponent at h
  split at h
  · rename_i ds
    split at h
    · cases h
    · split at h
      · cases h
        subst hus
        cases grouped with
        | true =>
          obtain rfl := hgrouped.1 rfl
          exact ⟨hopen.cons nofun nofun, ds, vs, rfl⟩
        | false =>
          have hu : u ≠ .mark .closing := fun hu => nomatch hgrouped.2 hu
          exact ⟨hopen.cons nofun nofun, letterGoesOn_exponent hu⟩
      · cases h
  · cases h

end

theorem describes_caret {u : Token} {vs : List Token} {grouped : Bool} (hopen : Open d (u :: vs))
    (hgrouped : grouped = true ↔ u = .mark .closing) :
    Describes ⟨.caret grouped, d⟩ (.mark .caret :: u :: vs) :=
  ⟨hopen.cons nofun nofun, u, vs, rfl, hgrouped⟩

theorem Describes.step (hp : p.Describes us) (h : p.step R t = .ok q) : q.Describes (t :: us) := by
  obtain ⟨spot, d⟩ := p
  cases spot with
  | start =>
    obtain ⟨rfl, hus⟩ := hp
    cases t with
    | newline => cases h; exact ⟨rfl, List.forall_mem_cons.2 ⟨rfl, hus⟩⟩
    | finish => cases h; trivial
    | _ => exact describes_operand (open_of_newlines hus) (operandDue_of_newlines hus) h
  | operand => exact describes_operand hp.1 hp.2.1 h
  | negated =>
    change (if t.endsLine then _ else operand R d t) = _ at h
    split at h
    · cases h
    · exact describes_operand hp.1 (operandDue_of_prefixMinus hp.2) h
  | digits =>
    by_cases hletter : ∃ v, t = .letter v
    · obtain ⟨v, rfl⟩ := hletter
      exact describes_letter hp.1 h
    · rw [step_digits fun v hv => hletter ⟨v, hv⟩] at h
      exact describes_goOn hp.1 (complete_of_letterGoesOn hp.2) h
  | letter =>
    obtain ⟨hopen, v, vs, rfl⟩ := hp
    by_cases hletter : ∃ v, t = .letter v
    · obtain ⟨v, rfl⟩ := hletter
      exact describes_letter hopen h
    · by_cases hcaret : t = .mark .caret
      · subst hcaret
        cases h
        exact describes_caret hopen ⟨nofun, nofun⟩
      · rw [step_letter (fun v hv => hletter ⟨v, hv⟩) hcaret] at h
        exact describes_goOn hopen rfl h
  | caret grouped =>
    obtain ⟨hopen, u, vs, hus, hgrouped⟩ := hp
    exact describes_exponent hopen hus hgrouped h
  | closed =>
    obtain ⟨hopen, vs, rfl⟩ := hp
    by_cases hcaret : t = .mark .caret
    · subst hcaret
      cases h
      exact describes_caret hopen ⟨fun _ => rfl, fun _ => rfl⟩
    · rw [step_closed hcaret] at h
      exact describes_goOn hopen rfl h
  | raised =>
    obtain ⟨hopen, ds, vs, rfl⟩ := hp
    exact describes_goOn hopen rfl h
  | past => cases h; trivial

theorem Describes.walk (hp : p.Describes us) (h : p.walk R ts = .ok q) :
    q.Describes (ts.reverse ++ us) := by
  induction ts generalizing p us with
  | nil => cases h; exact hp
  | cons t ts ih =>
    cases hstep : p.step R t with
    | error c => rw [walk_cons_of_error hstep] at h; cases h
    | ok p' =>
      rw [walk_cons hstep] at h
      rw [List.reverse_cons, List.append_assoc]
      exact ih (hp.step hstep) h

/-! ## What is refused -/

theorem refused_letter {v : Char} (hus : operandDue us = true ∨ letterGoesOn us = true)
    (h : letter R d v = .error c) :
    ∃ cause, c = .rejected cause ∧ Refused R us (.letter v) cause.kind := by
  unfold letter at h
  split at h
  · cases h
  · rename_i hv
    cases h
    exact ⟨_, rfl, .variable hus hv⟩

theorem refused_operand (hdue : operandDue us = true)
    (hends : t.endsLine = true → prefixMinus us = false) (h : operand R d t = .error c) :
    ∃ cause, c = .rejected cause ∧ Refused R us t cause.kind := by
  cases t with
  | number ds =>
    cases hread : (Coefficient.ofLiteral ds : Except NumeralError R.Carrier) with
    | ok k => rw [operand_of_ok hread] at h; cases h
    | error e =>
      rw [operand_of_error hread] at h
      cases h
      exact ⟨_, rfl, .literal hdue hread⟩
  | letter v => exact refused_letter (.inl hdue) h
  | finish => cases h; exact ⟨_, rfl, .ended hdue (hends rfl) rfl⟩
  | newline => cases h; exact ⟨_, rfl, .ended hdue (hends rfl) rfl⟩
  | mark m =>
    cases m with
    | opening => cases h
    | minus => cases h
    | closing => cases h; exact ⟨_, rfl, .stray hdue (by decide)⟩
    | period => cases h; exact ⟨_, rfl, .stray hdue (by decide)⟩
    | _ => cases h; exact ⟨_, rfl, .operator hdue (by decide)⟩

theorem goOn_eq_error (h : (goOn d t : Except Complaint Place) = .error c) :
    c = .rejected (if d = 0 then .trailing t else .unclosed) := by
  unfold goOn at h
  split at h <;> cases h <;> rfl

theorem refused_goOn (hopen : Open d us) (hcomplete : complete us = true)
    (hletter : ∀ v, t = .letter v → letterGoesOn us = false) (h : goOn d t = .error c) :
    ∃ cause, c = .rejected cause ∧ Refused R us t cause.kind := by
  refine ⟨_, goOn_eq_error h, ?_⟩
  cases d with
  | zero => exact .trailing hcomplete hletter hopen.inside
  | succ d =>
    exact .unclosed hcomplete hletter (hopen.inside.trans (decide_eq_true (Nat.succ_pos d)))

/-- An exponent that is too long. -/
def Overlong (us : List Token) (t : Token) : Prop :=
  ∃ ds e, afterCaret us = true ∧ t = .number ds ∧ '.' ∉ ds ∧ Numeral.readInt ds = .error e

theorem refused_exponent {grouped : Bool} (hcaret : afterCaret us = true)
    (h : exponent grouped d t = .error c) :
    (∃ cause, c = .rejected cause ∧ Refused R us t cause.kind) ∨ Overlong us t := by
  unfold exponent at h
  split at h
  · rename_i ds
    split at h
    · cases h
      exact .inl ⟨_, rfl, .exponent hcaret⟩
    · rename_i hpoint
      split at h
      · cases h
      · rename_i e he
        exact .inr ⟨ds, e, hcaret, rfl, hpoint, he⟩
  · cases h
    exact .inl ⟨_, rfl, .exponent hcaret⟩

/-- The kind of every complaint, unless an exponent is too long. -/
theorem Describes.refused (hp : p.Describes us) (h : p.step R t = .error c) :
    (∃ cause, c = .rejected cause ∧ Refused R us t cause.kind) ∨ Overlong us t := by
  obtain ⟨spot, d⟩ := p
  cases spot with
  | start =>
    obtain ⟨rfl, hus⟩ := hp
    cases t with
    | newline => cases h
    | finish => cases h
    | _ => exact .inl (refused_operand (operandDue_of_newlines hus) nofun h)
  | operand => exact .inl (refused_operand hp.2.1 (fun _ => hp.2.2) h)
  | negated =>
    change (if t.endsLine then _ else operand R d t) = _ at h
    split at h
    · rename_i hends
      cases h
      exact .inl ⟨_, rfl, .dangling hp.2 hends⟩
    · rename_i hends
      exact .inl (refused_operand (operandDue_of_prefixMinus hp.2) (fun h => absurd h hends) h)
  | digits =>
    by_cases hletter : ∃ v, t = .letter v
    · obtain ⟨v, rfl⟩ := hletter
      exact .inl (refused_letter (.inr hp.2) h)
    · have hno : ∀ v, t ≠ .letter v := fun v hv => hletter ⟨v, hv⟩
      rw [step_digits hno] at h
      have hcomplete := complete_of_letterGoesOn hp.2
      exact .inl (refused_goOn hp.1 hcomplete (fun v hv => absurd hv (hno v)) h)
  | letter =>
    obtain ⟨hopen, v, vs, rfl⟩ := hp
    by_cases hletter : ∃ v, t = .letter v
    · obtain ⟨v, rfl⟩ := hletter
      exact .inl (refused_letter (.inr rfl) h)
    · have hno : ∀ v, t ≠ .letter v := fun v hv => hletter ⟨v, hv⟩
      by_cases hcaret : t = .mark .caret
      · subst hcaret
        cases h
      · rw [step_letter hno hcaret] at h
        exact .inl (refused_goOn hopen rfl (fun v hv => absurd hv (hno v)) h)
  | caret grouped =>
    obtain ⟨-, u, vs, rfl, -⟩ := hp
    exact refused_exponent rfl h
  | closed =>
    obtain ⟨hopen, vs, rfl⟩ := hp
    by_cases hcaret : t = .mark .caret
    · subst hcaret
      cases h
    · rw [step_closed hcaret] at h
      exact .inl (refused_goOn hopen rfl (fun _ _ => rfl) h)
  | raised =>
    obtain ⟨hopen, ds, vs, rfl⟩ := hp
    exact .inl (refused_goOn hopen rfl (fun _ _ => rfl) h)
  | past => cases h

/-- Where a token is refused, a minus sign in front of an operand is told from the tokens. -/
theorem Describes.prefixMinus_iff (hp : p.Describes us) (h : p.step R t = .error c) :
    prefixMinus us = true ↔ p.spot = .negated := by
  have hno : ∀ {s : Spot}, prefixMinus us = false → s ≠ .negated →
      (prefixMinus us = true ↔ s = .negated) := fun hfalse hs => by simp [hfalse, hs]
  obtain ⟨spot, d⟩ := p
  cases spot with
  | start => exact hno (prefixMinus_of_newlines hp.2) nofun
  | operand => exact hno hp.2.2 nofun
  | negated => exact ⟨fun _ => rfl, fun _ => hp.2⟩
  | digits => exact hno (prefixMinus_of_complete (complete_of_letterGoesOn hp.2)) nofun
  | letter => obtain ⟨-, v, vs, rfl⟩ := hp; exact hno rfl nofun
  | caret grouped => obtain ⟨-, u, vs, rfl, -⟩ := hp; exact hno rfl nofun
  | closed => obtain ⟨-, vs, rfl⟩ := hp; exact hno rfl nofun
  | raised => obtain ⟨-, ds, vs, rfl⟩ := hp; exact hno rfl nofun
  | past => cases h

/-! ## Completions -/

/-- Some tokens lead from the place to the end of the line. -/
def Completable (R : PolyRing) (p : Place) : Prop :=
  ∃ ts, (∀ t ∈ ts, t.Spelled alphabet) ∧ ∃ q, p.walk R (ts ++ [.finish]) = .ok q

theorem Completable.of_step (h : p.step R t = .ok q) (ht : t.Spelled alphabet)
    (hq : Completable R q) : Completable R p := by
  obtain ⟨ts, hts, q', hq'⟩ := hq
  exact ⟨t :: ts, List.forall_mem_cons.2 ⟨ht, hts⟩, q', (walk_cons h).trans hq'⟩

/-- After a complete operand, closing parentheses lead there. -/
theorem completable_of_complete {s : Spot}
    (hs : s = .digits ∨ s = .letter ∨ s = .closed ∨ s = .raised) (d : Nat) :
    Completable R ⟨s, d⟩ := by
  induction d generalizing s with
  | zero =>
    refine ⟨[], nofun, ⟨.past, 0⟩, walk_singleton ?_⟩
    rcases hs with rfl | rfl | rfl | rfl <;> rfl
  | succ d ih =>
    have hstep : step R ⟨s, d + 1⟩ (.mark .closing) = .ok ⟨.closed, d⟩ := by
      rcases hs with rfl | rfl | rfl | rfl <;> rfl
    exact .of_step hstep trivial (ih (.inr (.inr (.inl rfl))))

theorem completable (R : PolyRing) (p : Place) : Completable R p := by
  obtain ⟨spot, d⟩ := p
  -- Where an operand is due, a variable of the ring is one.
  obtain ⟨v, hv⟩ := List.exists_mem_of_ne_nil _ R.vars_ne_nil
  have hdue : step R ⟨spot, d⟩ (.letter v) = letter R d v → Completable R ⟨spot, d⟩ := fun h =>
    .of_step (h.trans (letter_of_mem hv)) (R.mem_alphabet v hv)
      (completable_of_complete (.inr (.inl rfl)) d)
  cases spot with
  | start => exact hdue rfl
  | operand => exact hdue rfl
  | negated => exact hdue rfl
  | digits => exact completable_of_complete (.inl rfl) d
  | letter => exact completable_of_complete (.inr (.inl rfl)) d
  | caret grouped =>
    have hzero : AllDigits ['0'] := ⟨nofun, List.forall_mem_singleton.2 rfl⟩
    have hread := (Literal.readInt_of_digits hzero).trans (if_pos (by decide))
    have hstep : step R ⟨.caret grouped, d⟩ (.number ['0']) = _ :=
      exponent_of_ok (Literal.not_mem_point hzero) hread
    refine .of_step hstep (IsNumeral.whole hzero) (completable_of_complete ?_ d)
    cases grouped with
    | false => exact .inl rfl
    | true => exact .inr (.inr (.inr rfl))
  | closed => exact completable_of_complete (.inr (.inr (.inl rfl))) d
  | raised => exact completable_of_complete (.inr (.inr (.inr rfl))) d
  | past => exact ⟨[], nofun, _, walk_past rfl _⟩

end Place

/-! ## Lines -/

namespace Poly
variable {R : PolyRing} {text : List Char} {e : ParseError} {pre : List Token} {t : Token}

/-- Some line that is read starts with these tokens. -/
def Viable (R : PolyRing) (pre : List Token) : Prop :=
  ∃ text p, read R text = .ok p ∧ pre <+: (Line.scan alphabet text).sequence

theorem Viable.mono {us : List Token} (h : Viable R pre) (hus : us <+: pre) : Viable R us := by
  obtain ⟨text, p, hp, hpre⟩ := h
  exact ⟨text, p, hp, hus.trans hpre⟩

theorem exists_walk_of_viable (h : Viable R pre) : ∃ q, initial.walk R pre = .ok q := by
  obtain ⟨text, p, hp, post, hpost⟩ := h
  obtain ⟨q, hq⟩ := exists_walk_of_read hp
  rw [← hpost] at hq
  exact exists_walk_of_append hq

/-- A line without faults is read when the machine walks through it. -/
theorem exists_read_of_walk {q : Place} (hf : (Line.scan alphabet text).fault = none)
    (h : initial.walk R (Line.scan alphabet text).sequence = .ok q) : ∃ p, read R text = .ok p := by
  cases hread : read R text with
  | ok p => exact ⟨p, rfl⟩
  | error e =>
    obtain ⟨pre, t, post, q', c, i, hsplit, hwalk, hstep, -⟩ := exists_refused_of_read hread hf
    rw [hsplit, walk_append hwalk, walk_cons_of_error hstep] at h
    cases h

/-- The machine takes exactly those tokens that some accepted line starts with. -/
theorem viable_iff_walk (hpre : ∀ t ∈ pre, t.Spelled alphabet) :
    Viable R pre ↔ ∃ q, initial.walk R pre = .ok q := by
  refine ⟨exists_walk_of_viable, fun hwalk => ?_⟩
  obtain ⟨q, hq⟩ := hwalk
  obtain ⟨ts, hts, q', hq'⟩ := completable R q
  obtain ⟨text, hf, htokens⟩ := Line.exists_scan (List.forall_mem_append.2 ⟨hpre, hts⟩)
  have hsequence : (Line.scan alphabet text).sequence = pre ++ (ts ++ [.finish]) := by
    rw [Line.sequence_of_fault hf, htokens, List.append_assoc]
  obtain ⟨p, hp⟩ := exists_read_of_walk hf
    (hsequence ▸ (walk_append hq).trans hq' : initial.walk R _ = .ok q')
  exact ⟨text, p, hp, hsequence ▸ List.prefix_append pre _⟩

/-- The tokens before one of a line's tokens can be spelled: only the last token is the end of the
text. -/
theorem spelled_of_sequence {post : List Token} (hf : (Line.scan alphabet text).fault = none)
    (h : (Line.scan alphabet text).sequence = pre ++ t :: post) :
    ∀ u ∈ pre, u.Spelled alphabet := by
  have hdrop := congrArg List.dropLast h
  rw [Line.sequence_of_fault hf, List.dropLast_concat,
    List.dropLast_append_of_ne_nil (List.cons_ne_nil t post)] at hdrop
  exact fun u hu => Line.spelled_lexemes alphabet text u (hdrop ▸ List.mem_append_left _ hu)

/-- An exponent is too long only if a caret stands before more digits than are read. -/
theorem not_overlong {post : List Token}
    (hexponents : ∀ ds, [.mark .caret, .number ds] <:+: (Line.scan alphabet text).sequence →
      '.' ∉ ds → ds.length ≤ digitLimit)
    (h : (Line.scan alphabet text).sequence = pre ++ t :: post) : ¬ Overlong pre.reverse t := by
  rintro ⟨ds, e, hcaret, rfl, hpoint, hread⟩
  have hnumeral : IsNumeral ds := by
    have hmem : .number ds ∈ (Line.scan alphabet text).sequence := h ▸ by simp
    unfold Line.sequence at hmem
    rcases List.mem_append.1 hmem with hmem | hmem
    · exact Line.spelled_lexemes alphabet text _ hmem
    · split at hmem <;> simp at hmem
  have hlength : ds.length ≤ digitLimit := by
    refine hexponents ds ?_ hpoint
    cases hpre : pre.reverse with
    | nil => rw [hpre] at hcaret; cases hcaret
    | cons u us =>
      have hu : u = .mark .caret := by
        rw [hpre] at hcaret
        unfold afterCaret at hcaret
        split at hcaret
        · rename_i heq
          exact (List.cons.inj heq).1
        · cases hcaret
      rw [← List.reverse_reverse pre, hpre, hu, List.reverse_cons, List.append_assoc] at h
      exact ⟨us.reverse, post, by simp [h]⟩
  rw [Literal.readInt_of_digits (hnumeral.allDigits hpoint), if_pos hlength] at hread
  cases hread

/-- A line of recognised characters, in which no caret stands before an integer with too many
digits, is rejected at its first token that no accepted line has after the same tokens, with the
kind of error of this token. The error is found at the cursor just past the token; if the line ends
after a minus sign in front of an operand, just past the sign. -/
theorem read_earliest (R : PolyRing) (hchars : ∀ c ∈ text, Token.Recognised alphabet c)
    (hexponents : ∀ ds, [.mark .caret, .number ds] <:+: (Line.scan alphabet text).sequence →
      '.' ∉ ds → ds.length ≤ digitLimit)
    (h : read R text = .error e) :
    ∃ pre t post r, (Line.scan alphabet text).sequence = pre ++ t :: post ∧
      (∀ us, us <+: pre → Viable R us) ∧ ¬ Viable R (pre ++ [t]) ∧
      e = .rejected r ∧ (∀ kind, Refused R pre.reverse t kind ↔ kind = r.cause.kind) ∧
      r.position = (Line.scan alphabet text).stopAt
        (if prefixMinus pre.reverse && t.endsLine then pre.length - 1 else pre.length) := by
  have hf := Line.fault_eq_none_iff.2 hchars
  obtain ⟨pre, t, post, q, c, i, hsplit, hwalk, hstep, rfl, hi⟩ := exists_refused_of_read h hf
  have hdescribes : q.Describes pre.reverse := by
    have hinitial : initial.Describes [] := ⟨rfl, nofun⟩
    have hq := hinitial.walk hwalk
    rwa [List.append_nil] at hq
  have hviable : Viable R pre := (viable_iff_walk (spelled_of_sequence hf hsplit)).2 ⟨q, hwalk⟩
  have hnot : ¬ Viable R (pre ++ [t]) := by
    intro hviable
    obtain ⟨q', hq'⟩ := exists_walk_of_viable hviable
    rw [walk_append hwalk, walk_cons_of_error hstep] at hq'
    cases hq'
  obtain ⟨cause, rfl, hrefused⟩ :=
    (hdescribes.refused hstep).resolve_right (not_overlong hexponents hsplit)
  refine ⟨pre, t, post, _, hsplit, fun us hus => hviable.mono hus, hnot, rfl,
    fun kind => ⟨fun h => h.unique hrefused, fun h => h ▸ hrefused⟩, ?_⟩
  have hdangles : (prefixMinus pre.reverse && t.endsLine) = true ↔ q.Dangles t := by
    rw [Bool.and_eq_true, hdescribes.prefixMinus_iff hstep]
    exact Iff.rfl
  change (Line.scan alphabet text).stopAt i = _
  rcases hi with ⟨hno, rfl⟩ | ⟨hyes, hi⟩
  · rw [if_neg (mt hdangles.1 hno)]
  · rw [if_pos (hdangles.2 hyes), ← hi, Nat.add_sub_cancel]

/-- `x*- ` ends after a minus sign in front of an operand. The error is found just past the sign. -/
theorem read_earliest_dangling :
    let R : PolyRing := ⟨.integer, ['x'], by simp, by simp, by simp [alphabet]⟩
    let text := ['x', '*', '-', ' ']
    let line := Line.scan alphabet text
    let r : Rejection := ⟨.danglingMinus, 3, text⟩
    (∀ c ∈ text, Token.Recognised alphabet c) ∧
      (∀ ds, [.mark .caret, .number ds] <:+: line.sequence → '.' ∉ ds → ds.length ≤ digitLimit) ∧
      read R text = .error (.rejected r) ∧
      ∃ pre t post, line.sequence = pre ++ t :: post ∧ (∀ us, us <+: pre → Viable R us) ∧
        ¬ Viable R (pre ++ [t]) ∧
        (∀ kind, Refused R pre.reverse t kind ↔ kind = r.cause.kind) ∧
        r.position = line.stopAt
          (if prefixMinus pre.reverse && t.endsLine then pre.length - 1 else pre.length) := by
  intro R text line r
  have hf : (Line.scan alphabet text).fault = none := by cbv
  have hchars : ∀ c ∈ text, Token.Recognised alphabet c := Line.fault_eq_none_iff.1 hf
  have htokens : Line.tokensOf (Line.scan alphabet text).lexemes =
      [.letter 'x', .mark .star, .mark .minus] := by cbv
  have hexponents : ∀ ds, [.mark .caret, .number ds] <:+: line.sequence →
      '.' ∉ ds → ds.length ≤ digitLimit := by
    intro ds hds
    have hcaret := hds.subset List.mem_cons_self
    rw [Line.sequence_of_fault hf, htokens] at hcaret
    simp at hcaret
  have hread : read R text = .error (.rejected r) := by cbv
  obtain ⟨pre, t, post, r', hsplit, hviable, hnot, heq, hrefused, hposition⟩ :=
    read_earliest R hchars hexponents hread
  obtain rfl : r = r' := ParseError.rejected.inj heq
  exact ⟨hchars, hexponents, hread, pre, t, post, hsplit, hviable, hnot, hrefused, hposition⟩

end Poly
end Multipoly
