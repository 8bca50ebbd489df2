import Multipoly.Lexer

/-!
# Looking ahead

A lexer that has looked at the next token keeps it until the token is read. What it keeps is what a
scan from the cursor finds, whatever the steps before were, so no answer tells whether the lexer has
looked ahead.

Results:
* `Lexer.Coherent.step`: what is kept is what a scan finds, and every step leaves it so;
* `Lexer.step_congr`: lexers that differ in what they keep answer alike;
* `Lexer.advances_eq`: the answers to the advances do not depend on the peeks between them;
* `Lexer.peek_invisible`: all of this for the lexers that steps reach from the start of a line.
-/
namespace Multipoly.Lexer

variable {l l' : Lexer}

/-! ## Runs of steps -/

/-- The lexer after several steps. -/
def after (l : Lexer) (steps : List Step) : Lexer := steps.foldl (fun l s => (l.step s).2) l

/-- What is seen of a step: its answer, and the current token and the cursor after it. -/
def shown (answer : Except LexError Token × Lexer) : Except LexError Token × Token × Nat :=
  (answer.1, answer.2.token, answer.2.position)

/-- What is seen of the advances among several steps. -/
def advances (l : Lexer) (steps : List Step) : List (Except LexError Token × Token × Nat) :=
  ((steps.zip (l.trace steps)).filter (·.1 = .advance)).map fun found => shown found.2

theorem advances_peek (l : Lexer) (steps : List Step) :
    l.advances (.peek :: steps) = (l.step .peek).2.advances steps := rfl

theorem advances_advance (l : Lexer) (steps : List Step) :
    l.advances (.advance :: steps) =
      shown (l.step .advance) :: (l.step .advance).2.advances steps := rfl

/-! ## One step -/

theorem step_advance (l : Lexer) :
    l.step .advance =
      match l.next with
      | .ok (token, rest) => (.ok token, { l with token, rest, lookahead := none })
      | .error e => (.error e, l) := by
  simp only [step, advance]
  cases l.next <;> rfl

theorem step_peek (l : Lexer) :
    l.step .peek =
      match l.next with
      | .ok found => (.ok found.1, { l with lookahead := some found })
      | .error e => (.error e, l) := by
  simp only [step, peek]
  cases l.next <;> rfl

/-- A peek answers what an advance would. -/
theorem answer_peek (l : Lexer) : (l.step .peek).1 = (l.step .advance).1 := by
  rw [step_peek, step_advance]
  cases l.next <;> rfl

/-- A step that fails leaves the lexer as it was. -/
theorem eq_of_step_error {s : Step} {e : LexError} (h : (l.step s).1 = .error e) :
    (l.step s).2 = l := by
  cases s with
  | advance =>
    rw [step_advance] at h ⊢
    cases hnext : l.next with
    | ok found => rw [hnext] at h; cases h
    | error e => rfl
  | peek =>
    rw [step_peek] at h ⊢
    cases hnext : l.next with
    | ok found => rw [hnext] at h; cases h
    | error e => rfl

/-! ## What is kept -/

/-- A kept token is the one that a scan from the cursor finds. -/
def Coherent (l : Lexer) : Prop :=
  ∀ found, l.lookahead = some found → Token.scan l.symbols l.rest = .ok found

theorem coherent_ofLine (symbols line : List Char) : (ofLine symbols line).Coherent := nofun

/-- The lexer without the token it keeps. -/
def forget (l : Lexer) : Lexer := { l with lookahead := none }

/-- A coherent lexer goes on with what a scan finds, whether it keeps a token or not. -/
theorem Coherent.next (h : l.Coherent) :
    l.next = (Token.scan l.symbols l.rest).mapError (LexError.ofUnknown l.line) := by
  unfold Lexer.next
  cases hkept : l.lookahead with
  | none => rfl
  | some found => rw [h found hkept]; rfl

theorem Coherent.step (h : l.Coherent) (s : Step) : (l.step s).2.Coherent := by
  cases s with
  | advance =>
    rw [step_advance]
    cases l.next with
    | ok found => exact nofun
    | error e => exact h
  | peek =>
    rw [step_peek]
    cases hnext : l.next with
    | error e => exact h
    | ok found =>
      intro kept hkept
      obtain rfl : found = kept := Option.some.inj hkept
      rw [h.next] at hnext
      show Token.scan l.symbols l.rest = _
      cases hscan : Token.scan l.symbols l.rest with
      | ok found' =>
        rw [hscan] at hnext
        exact congrArg Except.ok (Except.ok.inj hnext)
      | error u => rw [hscan] at hnext; cases hnext

theorem Coherent.after (h : l.Coherent) (steps : List Step) : (l.after steps).Coherent := by
  induction steps generalizing l with
  | nil => exact h
  | cons s steps ih => exact ih (h.step s)

theorem forget_step_peek (l : Lexer) : (l.step .peek).2.forget = l.forget := by
  rw [step_peek]
  cases l.next <;> rfl

theorem forget_peeks (l : Lexer) (n : Nat) :
    (l.after (List.replicate n .peek)).forget = l.forget := by
  induction n generalizing l with
  | zero => rfl
  | succ n ih => exact (ih (l.step .peek).2).trans l.forget_step_peek

/-! ## Lexers that differ in what they keep -/

section
variable (h : l.Coherent) (h' : l'.Coherent) (hforget : l.forget = l'.forget)
include h h' hforget

theorem next_congr : l.next = l'.next := by
  obtain ⟨line, symbols, rest, token, kept⟩ := l
  obtain ⟨line', symbols', rest', token', kept'⟩ := l'
  rw [h.next, h'.next]
  cases hforget
  rfl

/-- They answer an advance alike and are alike after it. -/
theorem step_congr :
    shown (l.step .advance) = shown (l'.step .advance) ∧
      (l.step .advance).2.forget = (l'.step .advance).2.forget := by
  have hnext := next_congr h h' hforget
  obtain ⟨line, symbols, rest, token, kept⟩ := l
  obtain ⟨line', symbols', rest', token', kept'⟩ := l'
  rw [step_advance, step_advance, hnext]
  cases hforget
  split <;> exact ⟨rfl, rfl⟩

/-- The advances of one among peeks are those of the other without peeks. -/
theorem advances_eq (steps : List Step) :
    l.advances steps = (l'.trace (steps.filter (· = .advance))).map shown := by
  induction steps generalizing l l' with
  | nil => rfl
  | cons s steps ih =>
    cases s with
    | peek =>
      rw [advances_peek]
      exact ih (h.step .peek) h' (l.forget_step_peek.trans hforget)
    | advance =>
      obtain ⟨hshown, hafter⟩ := step_congr h h' hforget
      rw [advances_advance, hshown, ih (h.step .advance) (h'.step .advance) hafter]
      rfl

end

/-! ## From the start of a line -/

/-- Whatever steps a lexer has taken from the start of a line: deleting the peeks changes no answer
to an advance, no token and no cursor after it; any number of peeks before an advance answers what
the advance does and leaves the token and the cursor; and a step that fails leaves them too, so it
fails again in the same way. -/
theorem peek_invisible (symbols line : List Char) (steps : List Step) :
    let start := ofLine symbols line
    let l := start.after steps
    start.advances steps = (start.trace (steps.filter (· = .advance))).map shown ∧
      (∀ n, ((l.after (List.replicate n .peek)).step .advance).1 = (l.step .peek).1) ∧
      (l.step .peek).1 = (l.step .advance).1 ∧
      (l.step .peek).2.token = l.token ∧ (l.step .peek).2.position = l.position ∧
      ∀ s e, (l.step s).1 = .error e → (l.step s).2.token = l.token ∧
        (l.step s).2.position = l.position ∧ (l.step s).2.step s = l.step s := by
  intro start l
  have hstart : start.Coherent := coherent_ofLine symbols line
  have hl : l.Coherent := hstart.after steps
  refine ⟨advances_eq hstart hstart rfl steps, fun n => ?_, l.answer_peek, ?_, ?_, ?_⟩
  · obtain ⟨hshown, -⟩ := step_congr (hl.after (List.replicate n .peek)) hl (l.forget_peeks n)
    exact (congrArg Prod.fst hshown).trans l.answer_peek.symm
  · show (l.step .peek).2.forget.token = l.forget.token
    rw [forget_step_peek]
  · show (l.step .peek).2.forget.position = l.forget.position
    rw [forget_step_peek]
  · intro s e herror
    rw [eq_of_step_error herror]
    exact ⟨rfl, rfl, rfl⟩

/-- After `12` of `12 # x` every further step fails at the same character, in whichever order the
lexer is asked. -/
theorem peek_invisible_fault :
    let start := ofLine ['x'] ['1', '2', ' ', '#', ' ', 'x']
    let l := start.after [.peek, .advance, .peek]
    let e : LexError := ⟨['1', '2', ' ', '#', ' ', 'x'], 3, '#'⟩
    (l.token, l.position) = (.number ['1', '2'], 2) ∧ (l.step .peek).1 = .error e ∧
      (l.step .advance).1 = .error e ∧ (l.step .peek).2.token = l.token ∧
      (l.step .peek).2.position = l.position ∧ (l.step .peek).2.step .peek = l.step .peek := by
  intro start l e
  obtain ⟨-, -, hanswer, -, -, hfails⟩ :=
    peek_invisible ['x'] ['1', '2', ' ', '#', ' ', 'x'] [.peek, .advance, .peek]
  have hpeek : (l.step .peek).1 = .error e := by rfl
  exact ⟨by rfl, hpeek, hanswer.symm.trans hpeek, hfails .peek e hpeek⟩

end Multipoly.Lexer
