import Multipoly.Proofs.Lookahead
import Multipoly.Proofs.Munching

/-!
# Lexers in the middle of a line

A lexer that has read its first token stands at a token of the line, whatever steps it takes then.
The tokens left are those of the line from there on. A step either stays at the token or moves to one
that starts behind it; at the end of the line every step stays.

Results:
* `Lexer.stands_of_advance`: after the first token all tokens of the line are left;
* `Lexer.Stands.next_of_none`: the next token is the next one of those left;
* `Lexer.Stands.step`, `Lexer.Stands.after`: what steps do to the tokens left and to the offset at
  which the current one starts.
-/
namespace Multipoly

/-- A scan finds no more tokens than there are characters. -/
theorem Line.length_scanFrom_le (symbols text cs : List Char) :
    (scanFrom symbols text cs).1.length ≤ cs.length := by
  induction hn : cs.length using Nat.strongRecOn generalizing cs with
  | ind n ih =>
    rw [scanFrom_eq]
    cases hscan : Token.scan symbols cs with
    | error u => exact Nat.zero_le _
    | ok found =>
      obtain ⟨t, rest⟩ := found
      dsimp only
      by_cases hfinish : t = .finish
      · rw [if_pos hfinish]
        exact Nat.zero_le _
      · have hlt := Token.length_lt_of_scan hscan hfinish
        rw [if_neg hfinish, List.length_cons]
        exact Nat.succ_le_of_lt (Nat.lt_of_le_of_lt (ih rest.length (hn ▸ hlt) rest rfl) (hn ▸ hlt))

namespace Lexer
variable {line : Line} {l : Lexer} {x : Lexeme} {ts us : List Lexeme} {t : Token} {rest : List Char}
  {e : LexError}

theorem after_cons (l : Lexer) (s : Step) (steps : List Step) :
    l.after (s :: steps) = (l.step s).2.after steps := rfl

theorem after_append (l : Lexer) (steps steps' : List Step) :
    l.after (steps ++ steps') = (l.after steps).after steps' := List.foldl_append

/-! ## The token before the cursor -/

/-- The offset at which the current token starts. -/
def tokenStart (l : Lexer) : Nat := l.position - l.token.text.length

/-- The tokens left, the current one first and the end not counted. -/
def lexemes (l : Lexer) : List Lexeme :=
  if l.token = .finish then []
  else ⟨l.token, l.position⟩ :: (Line.scanFrom l.symbols l.line l.rest).1

/-- The lexer after it has found a token. -/
def move (l : Lexer) (t : Token) (rest : List Char) : Lexer :=
  { l with token := t, rest, lookahead := none }

/-- The lexer has read the line up to one of its tokens, and `ts` are the tokens left. -/
structure Stands (line : Line) (l : Lexer) (ts : List Lexeme) : Prop where
  coherent : l.Coherent
  line_eq : l.line = line.text
  lexemes_eq : l.lexemes = ts
  /-- A scan of the rest stops where the scan of the line did. -/
  fault_eq : (Line.scanFrom l.symbols l.line l.rest).2 = line.fault
  /-- The current token is found in the line right before the cursor. -/
  text_eq : ∃ before, l.line = before ++ (l.token.text ++ l.rest)
  token_eq : l.token = .finish ∧ l.rest = [] ∨ l.token.Spelled l.symbols

namespace Stands

theorem rest_eq_nil (h : Stands line l ts) (hfinish : l.token = .finish) : l.rest = [] := by
  rcases h.token_eq with ⟨-, hrest⟩ | hspelled
  · exact hrest
  · rw [hfinish] at hspelled
    exact hspelled.elim

theorem lexemes_of_finish (h : Stands line l ts) (hfinish : l.token = .finish) : ts = [] := by
  rw [← h.lexemes_eq, lexemes, if_pos hfinish]

theorem lexemes_of_ne_finish (h : Stands line l ts) (hfinish : l.token ≠ .finish) :
    ts = ⟨l.token, l.position⟩ :: (Line.scanFrom l.symbols l.line l.rest).1 := by
  rw [← h.lexemes_eq, lexemes, if_neg hfinish]

theorem finish_of_nil (h : Stands line l []) : l.token = .finish := by
  by_contra hfinish
  cases h.lexemes_of_ne_finish hfinish

theorem current (h : Stands line l ts) : Line.current ts = l.token := by
  by_cases hfinish : l.token = .finish
  · rw [h.lexemes_of_finish hfinish, hfinish]
    rfl
  · rw [h.lexemes_of_ne_finish hfinish]
    rfl

theorem token_ne_finish (h : Stands line l (x :: ts)) : x.token ≠ .finish := by
  intro hfinish
  have hcurrent : x.token = l.token := h.current
  cases h.lexemes_of_finish (hcurrent.symm.trans hfinish)

theorem position_of_finish (h : Stands line l ts) (hfinish : l.token = .finish) :
    l.position = line.text.length := by
  rw [position, h.rest_eq_nil hfinish, h.line_eq]
  rfl

theorem tokenStart_of_nil (h : Stands line l []) : l.tokenStart = line.text.length := by
  rw [tokenStart, h.finish_of_nil, h.position_of_finish h.finish_of_nil]
  rfl

theorem cursor (h : Stands line l ts) : line.cursor ts = l.position := by
  by_cases hfinish : l.token = .finish
  · rw [h.lexemes_of_finish hfinish, h.position_of_finish hfinish]
    rfl
  · rw [h.lexemes_of_ne_finish hfinish]
    rfl

/-- The text of the token lies between the offset at which it starts and the cursor. -/
theorem tokenStart_add (h : Stands line l ts) :
    l.tokenStart + l.token.text.length = l.position := by
  obtain ⟨before, hbefore⟩ := h.text_eq
  have hlength := congrArg List.length hbefore
  simp only [List.length_append] at hlength
  unfold tokenStart position
  omega

theorem tokenStart_lt (h : Stands line l (x :: ts)) : l.tokenStart < l.position := by
  have hadd := h.tokenStart_add
  rcases h.token_eq with ⟨hfinish, -⟩ | hspelled
  · cases h.lexemes_of_finish hfinish
  · have hpos := List.length_pos_iff.2 hspelled.text_ne_nil
    omega

theorem position_add (h : Stands line l ts) : l.position + l.rest.length = l.line.length := by
  obtain ⟨before, hbefore⟩ := h.text_eq
  rw [position, hbefore]
  simp only [List.length_append]
  omega

/-- No more tokens are left than characters. -/
theorem length_le (h : Stands line l ts) : ts.length ≤ l.line.length - l.tokenStart := by
  cases ts with
  | nil => exact Nat.zero_le _
  | cons x ts =>
    have hlt := h.tokenStart_lt
    have hadd := h.position_add
    have hfinish : l.token ≠ .finish := fun hfinish => nomatch h.lexemes_of_finish hfinish
    obtain ⟨-, rfl⟩ := List.cons.inj (h.lexemes_of_ne_finish hfinish)
    have hle := Line.length_scanFrom_le l.symbols l.line l.rest
    rw [List.length_cons]
    omega

end Stands

/-! ## The next token -/

/-- The lexer moves to the token that a scan of the rest finds, and the tokens left are those that
the scan begins. -/
theorem stands_move (hline : l.line = line.text) (hbefore : ∃ before, l.line = before ++ l.rest)
    (hfault : (Line.scanFrom l.symbols l.line l.rest).2 = line.fault)
    (hscan : Token.scan l.symbols l.rest = .ok (t, rest)) :
    Stands line (l.move t rest) (Line.scanFrom l.symbols l.line l.rest).1 := by
  obtain ⟨gs, -, hrest, htoken⟩ := Token.text_of_scan hscan
  obtain ⟨before, hbefore⟩ := hbefore
  rw [Line.scanFrom_eq, hscan] at hfault ⊢
  dsimp only at hfault ⊢
  refine ⟨nofun, hline, ?_, ?_, ⟨before ++ gs, ?_⟩, htoken⟩
  · by_cases hfinish : t = .finish
    · rw [if_pos hfinish]
      exact if_pos hfinish
    · rw [if_neg hfinish]
      exact if_neg hfinish
  · by_cases hfinish : t = .finish
    · rw [if_pos hfinish] at hfault
      rcases htoken with ⟨-, rfl⟩ | hspelled
      · rw [← hfault]
        change (Line.scanFrom l.symbols l.line []).2 = none
        rw [Line.scanFrom_eq]
        rfl
      · rw [hfinish] at hspelled
        exact hspelled.elim
    · rw [if_neg hfinish] at hfault
      exact hfault
  · change l.line = before ++ gs ++ (t.text ++ rest)
    rw [List.append_assoc, ← hrest, hbefore]

/-- The next token starts at the cursor or behind it. -/
theorem position_le_tokenStart (hscan : Token.scan l.symbols l.rest = .ok (t, rest)) :
    l.position ≤ (l.move t rest).tokenStart := by
  obtain ⟨gs, -, hrest, -⟩ := Token.text_of_scan hscan
  have hlength := congrArg List.length hrest
  simp only [List.length_append] at hlength
  change l.line.length - l.rest.length ≤ l.line.length - rest.length - t.text.length
  omega

/-- After the first token of a line all its tokens are left. -/
theorem stands_of_advance {symbols text : List Char}
    (h : (ofLine symbols text).advance = .ok l) :
    Stands (Line.scan symbols text) l (Line.scan symbols text).lexemes := by
  unfold advance next at h
  cases hscan : Token.scan symbols text with
  | error u =>
    dsimp only [ofLine] at h
    rw [hscan] at h
    cases h
  | ok found =>
    obtain ⟨t, rest⟩ := found
    dsimp only [ofLine] at h
    rw [hscan] at h
    cases h
    exact stands_move (l := ofLine symbols text) rfl ⟨[], rfl⟩ rfl hscan

theorem tokenStart_step_peek (l : Lexer) : (l.step .peek).2.tokenStart = l.tokenStart := by
  rw [step_peek]
  cases l.next <;> rfl

namespace Stands

theorem scanFrom_rest (h : Stands line l ts) :
    (Line.scanFrom l.symbols l.line l.rest).1 = ts.tail := by
  by_cases hfinish : l.token = .finish
  · rw [h.lexemes_of_finish hfinish, h.rest_eq_nil hfinish, Line.scanFrom_eq]
    rfl
  · rw [h.lexemes_of_ne_finish hfinish]
    rfl

/-- The fault of the line stands before the next token if a scan of the rest finds it. -/
theorem faultBefore_tail (h : Stands line l ts) :
    line.faultBefore? ts.tail =
      match Token.scan l.symbols l.rest with
      | .ok _ => none
      | .error u => some (.ofUnknown l.line u) := by
  rw [← h.scanFrom_rest]
  cases hscan : Token.scan l.symbols l.rest with
  | error u =>
    have hfault : line.fault = some (.ofUnknown l.line u) := by
      rw [← h.fault_eq, Line.scanFrom_eq, hscan]
    rw [Line.scanFrom_eq, hscan]
    exact hfault
  | ok found =>
    rw [Line.faultBefore_eq_none, ← h.fault_eq, Line.scanFrom_eq, hscan]
    dsimp only
    split
    · exact fun _ => rfl
    · exact nofun

/-- No token follows if a fault of the line stands before the next one. -/
theorem next_of_fault (h : Stands line l ts) (hfault : line.faultBefore? ts.tail = some e) :
    l.next = .error e ∧ e.line = line.text := by
  rw [h.faultBefore_tail] at hfault
  rw [h.coherent.next]
  cases hscan : Token.scan l.symbols l.rest with
  | error u =>
    rw [hscan] at hfault
    cases hfault
    exact ⟨rfl, h.line_eq⟩
  | ok found =>
    rw [hscan] at hfault
    cases hfault

/-- Otherwise the next token of the lexer is the next of those left, and starts at the cursor or
behind it. -/
theorem next_of_none (h : Stands line l ts) (hfault : line.faultBefore? ts.tail = none) :
    ∃ t rest, l.next = .ok (t, rest) ∧ l.position ≤ (l.move t rest).tokenStart ∧
      Stands line (l.move t rest) ts.tail := by
  rw [h.faultBefore_tail] at hfault
  rw [h.coherent.next]
  cases hscan : Token.scan l.symbols l.rest with
  | error u =>
    rw [hscan] at hfault
    cases hfault
  | ok found =>
    obtain ⟨t, rest⟩ := found
    obtain ⟨before, hbefore⟩ := h.text_eq
    have hmove : Stands line (l.move t rest) (Line.scanFrom l.symbols l.line l.rest).1 :=
      stands_move h.line_eq ⟨_, hbefore.trans (List.append_assoc _ _ _).symm⟩ h.fault_eq hscan
    exact ⟨t, rest, rfl, position_le_tokenStart hscan, h.scanFrom_rest ▸ hmove⟩

/-! ## Steps -/

theorem peek (h : Stands line l ts) : Stands line (l.step .peek).2 ts := by
  have hcoherent := h.coherent.step .peek
  rw [step_peek] at hcoherent ⊢
  cases hnext : l.next with
  | error e => exact h
  | ok found =>
    rw [hnext] at hcoherent
    exact { h with coherent := hcoherent }

/-- A step stays at the token, or moves to one that starts behind it. -/
theorem step (h : Stands line l ts) (s : Step) :
    ∃ us, Stands line (l.step s).2 us ∧
      (us = ts ∧ (l.step s).2.tokenStart = l.tokenStart ∨
        l.tokenStart < (l.step s).2.tokenStart) := by
  cases s with
  | advance =>
    rw [step_advance]
    cases hfault : line.faultBefore? ts.tail with
    | some e =>
      rw [(h.next_of_fault hfault).1]
      exact ⟨ts, h, .inl ⟨rfl, rfl⟩⟩
    | none =>
      obtain ⟨t, rest, hnext, hle, hstands⟩ := h.next_of_none hfault
      rw [hnext]
      refine ⟨ts.tail, hstands, ?_⟩
      cases ts with
      | nil => exact .inl ⟨rfl, hstands.tokenStart_of_nil.trans h.tokenStart_of_nil.symm⟩
      | cons x ts => exact .inr (Nat.lt_of_lt_of_le h.tokenStart_lt hle)
  | peek => exact ⟨ts, h.peek, .inl ⟨rfl, l.tokenStart_step_peek⟩⟩

theorem after (h : Stands line l ts) (steps : List Step) :
    ∃ us, Stands line (l.after steps) us ∧
      (us = ts ∧ (l.after steps).tokenStart = l.tokenStart ∨
        l.tokenStart < (l.after steps).tokenStart) := by
  induction steps generalizing l ts with
  | nil => exact ⟨ts, h, .inl ⟨rfl, rfl⟩⟩
  | cons s steps ih =>
    obtain ⟨us, hus, hstep⟩ := h.step s
    obtain ⟨vs, hvs, hsteps⟩ := ih hus
    refine ⟨vs, hvs, ?_⟩
    rw [after_cons]
    rcases hstep with ⟨rfl, hstep⟩ | hstep
    · rw [← hstep]
      exact hsteps
    · rcases hsteps with ⟨-, hsteps⟩ | hsteps
      · exact .inr (hsteps ▸ hstep)
      · exact .inr (hstep.trans hsteps)

end Stands

end Lexer
end Multipoly
