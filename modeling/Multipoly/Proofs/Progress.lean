import Multipoly.Proofs.Following

/-!
# Progress of the descent

A phrase that is read moves the current token on, so a descent that takes back no token ends. The
measure is the offset at which the current token starts, not the cursor, which stands still at the
end of the line.

Results:
* `Descent.Moves.lt_of_follows`, `Descent.Moves.le_of_follows`: what a phrase does to the offset, by
  the tokens that it leaves;
* `Descent.factorWith_beyond`: a factor calls for a factor or a sum only behind its first token;
* `Descent.progress`: every phrase ends at every lexer in the middle of a line.
-/
namespace Multipoly
open Lexer

/-- A depth for what is left of the line: three calls for each character, and five. -/
def Lexer.reach (l : Lexer) : Nat := 3 * (l.line.length - l.tokenStart) + 5

namespace Descent

variable {α β : Type} {n : Nat} {line : Line} {R : PolyRing} {l l' : Lexer} {ts : List Lexeme}

/-! ## Offsets -/

/-- Unless the depth is short of the reach, the phrase ends with the answer of `o` at the tokens that
`o` leaves, after steps of the lexer. If it is read, the offsets at which the tokens before and after
it start are related by `r`, and the one after it is no offset past the end of the line. -/
def Moves (r : Nat → Nat → Prop) (p : Nat → Descent α) (l : Lexer) (o : Outcome α n) : Prop :=
  ∀ depth, depth < l.reach ∧ (p depth).on l = none ∨
    ∃ l' steps, (p depth).on l = some (o.toExcept, l') ∧ l' = l.after steps ∧ l'.lexemes = o.rest ∧
      ∀ a, o.toExcept = .ok a → r l.tokenStart l'.tokenStart ∧ l'.tokenStart ≤ l.line.length

theorem Moves.of_follows {r : Nat → Nat → Prop} {p : Nat → Descent α} {o : Outcome α n}
    (h : Stands line l ts) (hp : ∀ depth, Follows line (depth < l.reach) (p depth) l o)
    (hr : ∀ steps, Stands line (l.after steps) o.rest → ∀ a, o.toExcept = .ok a →
      r l.tokenStart (l.after steps).tokenStart) : Moves r p l o := by
  intro depth
  rcases hp depth with hshort | ⟨l', steps, hon, rfl, hl'⟩
  · exact .inl hshort
  · refine .inr ⟨_, steps, hon, rfl, hl'.lexemes_eq, fun a ha => ⟨hr steps hl' a ha, ?_⟩⟩
    have hle : (l.after steps).tokenStart ≤ (l.after steps).line.length :=
      (Nat.sub_le _ _).trans (Nat.sub_le _ _)
    rwa [hl'.line_eq, ← h.line_eq] at hle

theorem Moves.le_of_follows {p : Nat → Descent α} {o : Outcome α n} (h : Stands line l ts)
    (hp : ∀ depth, Follows line (depth < l.reach) (p depth) l o) : Moves (· ≤ ·) p l o := by
  refine .of_follows h hp fun steps _ _ _ => ?_
  obtain ⟨us, -, ⟨-, heq⟩ | hlt⟩ := h.after steps
  · exact heq.ge
  · exact hlt.le

/-- A phrase that leaves fewer tokens has moved on. -/
theorem Moves.lt_of_follows {p : Nat → Descent α} {o : Outcome α ts.length} (h : Stands line l ts)
    (hp : ∀ depth, Follows line (depth < l.reach) (p depth) l o) : Moves (· < ·) p l o := by
  refine .of_follows h hp fun steps hl' a ha => ?_
  obtain ⟨us, hus, ⟨rfl, -⟩ | hlt⟩ := h.after steps
  · cases o with
    | failed e rest => cases ha
    | done a rest lt =>
      have hrest : rest = us := hl'.lexemes_eq.symm.trans hus.lexemes_eq
      exact absurd (hrest ▸ lt) (Nat.lt_irrefl _)
  · exact hlt

/-! ## Calls -/

/-- The phrase where the current token starts behind `offset`; anywhere else it never ends. -/
def beyond (offset : Nat) (p : Descent α) : Descent α :=
  ExceptT.mk fun l => if offset < l.tokenStart then p.on l else none

theorem on_beyond (offset : Nat) (p : Descent α) (l : Lexer) :
    (p.beyond offset).on l = if offset < l.tokenStart then p.on l else none := rfl

/-- What follows a phrase matters only at the lexers that the phrase steps to. -/
theorem on_bind_congr {p : Descent α} {f g : α → Descent β}
    (h : ∀ a l', p.on l = some (.ok a, l') → (f a).on l' = (g a).on l') :
    (p >>= f).on l = (p >>= g).on l := by
  rw [on_bind, on_bind]
  rcases hp : p.on l with _ | ⟨e | a, l'⟩
  · rfl
  · rfl
  · exact h a l' hp

/-- A token that has been passed lies before the one that the lexer stands at then. -/
theorem tokenStart_lt_of_advance (h : Stands line l ts) (hfinish : l.token ≠ .finish) {u : Unit}
    (hadvance : advance.on l = some (.ok u, l')) : l.tokenStart < l'.tokenStart := by
  rw [on_advance] at hadvance
  cases hfault : line.faultBefore? ts.tail with
  | some e =>
    rw [(h.next_of_fault hfault).1] at hadvance
    cases hadvance
  | none =>
    obtain ⟨t, rest, hnext, hle, -⟩ := h.next_of_none hfault
    rw [hnext] at hadvance
    cases hadvance
    rw [h.lexemes_of_ne_finish hfinish] at h
    exact Nat.lt_of_lt_of_le h.tokenStart_lt hle

theorem after_peek {t : Token} (hpeek : peek.on l = some (.ok t, l')) : l' = (l.step .peek).2 := by
  rw [on_peek] at hpeek
  rw [step_peek]
  cases hnext : l.next with
  | error e =>
    rw [hnext] at hpeek
    cases hpeek
  | ok found =>
    rw [hnext] at hpeek
    cases hpeek
    rfl

theorem advance_beyond (h : Stands line l ts) (hfinish : l.token ≠ .finish) (p : Descent α)
    (f : α → Descent β) :
    (do advance; f (← p.beyond l.tokenStart)).on l = (do advance; f (← p)).on l := by
  refine on_bind_congr fun _ l' hadvance => ?_
  rw [on_bind, on_bind, on_beyond, if_pos (tokenStart_lt_of_advance h hfinish hadvance)]

/-- Every call that a factor makes of a factor or of a sum is made where the current token starts
behind the first token of the factor. -/
theorem factorWith_beyond (h : Stands line l ts) (depth : Nat) (f s : Descent (Expr R)) :
    (factorWith R depth (f.beyond l.tokenStart) (s.beyond l.tokenStart)).on l =
      (factorWith R depth f s).on l := by
  refine on_bind_congr fun t l' hcurrent => ?_
  cases hcurrent
  cases htoken : l.token with
  | mark m =>
    have hfinish : l.token ≠ .finish := htoken ▸ nofun
    cases m with
    | opening => exact advance_beyond h hfinish s (close R)
    | minus =>
      refine on_bind_congr fun next l' hpeek => ?_
      obtain rfl := after_peek hpeek
      rw [← l.tokenStart_step_peek]
      split
      · rfl
      · split
        · rfl
        · have hpeeked : (l.step .peek).2.token = .mark .minus :=
            (congrArg Lexer.token l.forget_step_peek).trans htoken
          exact advance_beyond h.peek (hpeeked ▸ nofun) f fun a => pure (Expr.neg a)
    | _ => rfl
  | _ => rfl

/-! ## Any line -/

/-- Whatever steps a lexer has taken since the first token of a line: the offset at which the current
token starts is the cursor less the text of the token, and lies in the line or at its end. A
monomial, a factor, a product and a sum that are read from there move it on, a run and a whole line
do not move it back, and none of them moves it past the end. Each of them ends, read or rejected,
with the answer and the tokens left that the descent over the scanned tokens has. And every call that
a factor makes of a factor or of a sum is made behind the offset at which the factor starts: it
does not matter what the called phrases do anywhere else. -/
theorem progress (R : PolyRing) {text : List Char} {first : Lexer}
    (h : (ofLine alphabet text).advance = .ok first) (steps : List Step) :
    let line := Line.scan alphabet text
    let l := first.after steps
    (l.tokenStart + l.token.text.length = l.position ∧ l.position ≤ text.length) ∧
      Moves (· < ·) (monomial R) l (line.monomial R l.lexemes) ∧
      Moves (· < ·) (factor R) l (line.factor R l.lexemes) ∧
      Moves (· < ·) (product R) l (line.product R l.lexemes) ∧
      Moves (· < ·) (sum R) l (line.sum R l.lexemes) ∧
      Moves (· ≤ ·) (run R) l (line.run R l.lexemes) ∧
      Moves (· ≤ ·) (whole R) l (line.whole R l.lexemes) ∧
      ∀ depth, factor R (depth + 1) = factorWith R depth (factor R depth) (sum R depth) ∧
        ∀ f s : Descent (Expr R),
          (factorWith R depth (f.beyond l.tokenStart) (s.beyond l.tokenStart)).on l =
            (factorWith R depth f s).on l := by
  intro line l
  obtain ⟨ts, hl, -⟩ := (stands_of_advance h).after steps
  have hlength : 3 * ts.length + 5 ≤ l.reach :=
    Nat.add_le_add_right (Nat.mul_le_mul_left 3 hl.length_le) 5
  have hposition : l.position ≤ text.length := (Nat.sub_le _ _).trans (hl.line_eq ▸ Nat.le_refl _)
  rw [hl.lexemes_eq]
  refine ⟨⟨hl.tokenStart_add, hposition⟩, .lt_of_follows hl fun depth => ?_,
    .lt_of_follows hl fun depth => ?_, .lt_of_follows hl fun depth => ?_,
    .lt_of_follows hl fun depth => ?_, .le_of_follows hl fun depth => ?_,
    .le_of_follows hl fun depth => ?_,
    fun depth => ⟨rfl, factorWith_beyond hl depth⟩⟩
  · exact (follows_monomial depth hl).mono fun hshort => by omega
  · exact ((suffices_depth line R depth).factor hl).mono fun hshort => by omega
  · exact ((suffices_depth line R depth).product hl).mono fun hshort => by omega
  · exact ((suffices_depth line R depth).sum hl).mono fun hshort => by omega
  · exact (follows_run depth hl).mono fun hshort => by omega
  · exact (follows_whole depth hl).mono fun hshort => by omega

/-- In `-(x ) ` after a look ahead: the factor is read by the depth that its reach calls for, and the
token after it starts behind the sign. -/
theorem progress_group :
    let R : PolyRing := ⟨.integer, ['x'], by simp, by simp, by simp [alphabet]⟩
    let text := ['-', '(', 'x', ' ', ')', ' ']
    let first : Lexer := ⟨text, alphabet, ['(', 'x', ' ', ')', ' '], .mark .minus, none⟩
    let l := first.after [.peek]
    (ofLine alphabet text).advance = .ok first ∧ l.tokenStart = 0 ∧ l.reach = 23 ∧
      ∃ l', (factor R 23).on l = some (.ok (.neg (.run [(.plus, ⟨1, [1]⟩)])), l') ∧
        0 < l'.tokenStart ∧ l'.tokenStart ≤ 6 := by
  intro R text first l
  have hfirst : (ofLine alphabet text).advance = .ok first := by rfl
  have hread : ((Line.scan alphabet text).factor R l.lexemes).toExcept =
      .ok (.neg (.run [(.plus, ⟨1, [1]⟩)])) := by
    cbv
  have hreach : l.reach = 23 := by rfl
  obtain ⟨-, -, hfactor, -⟩ := progress R hfirst [.peek]
  rcases hfactor 23 with ⟨hshort, -⟩ | ⟨l', -, hon, -, -, hmoves⟩
  · exact absurd (hreach ▸ hshort) (Nat.lt_irrefl _)
  · exact ⟨hfirst, rfl, hreach, l', hread ▸ hon, hmoves _ hread⟩

end Descent
end Multipoly
