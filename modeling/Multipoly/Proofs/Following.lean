import Multipoly.Descent
import Multipoly.Proofs.Soundness
import Multipoly.Proofs.Stepping

/-!
# The descent on a lexer follows the descent over tokens

At a lexer that stands at a token of a line, each phrase answers what the same phrase answers over
the tokens left, and steps to a lexer at the tokens which that one leaves. The descent on a lexer
must not be cut off for that, so each lemma also says which depth is too short. A loop needs a round
more than there are tokens left; a call of a factor, a product or a sum needs three calls for each
token left.

Results:
* `Descent.Follows`: what it means to follow an outcome, with one lemma for each step of a lexer;
* `Descent.follows_monomial`, `Descent.follows_run`, `Descent.follows_whole`: the phrases;
* `Descent.suffices_depth`: factors, products and sums.
-/
namespace Multipoly.Descent
open Lexer

variable {α β : Type} {m n : Nat} {line : Line} {R : PolyRing} {l l' : Lexer} {x : Lexeme}
  {ts us : List Lexeme} {t : Token} {short short' : Prop} {e : ParseError}

/-! ## Calls at a lexer -/

theorem on_bind (p : Descent α) (f : α → Descent β) (l : Lexer) :
    (p >>= f).on l =
      match p.on l with
      | some (.ok a, l') => (f a).on l'
      | some (.error e, l') => some (.error e, l')
      | none => none := by
  change (p.on l).bind (fun found => ExceptT.bindCont f found.1 found.2) = _
  rcases p.on l with _ | ⟨a | e, l'⟩ <;> rfl

theorem on_get (l : Lexer) : (get : Descent Lexer).on l = some (.ok l, l) := rfl

theorem on_advance (l : Lexer) :
    advance.on l =
      match l.next with
      | .ok (t, rest) => some (.ok (), l.move t rest)
      | .error e => some (.error (.rejected ⟨.unreadable .advancing e, e.position, e.line⟩), l) := by
  unfold advance
  rw [on_bind, on_get]
  dsimp only
  rw [Lexer.advance]
  cases l.next <;> rfl

theorem on_peek (l : Lexer) :
    peek.on l =
      match l.next with
      | .ok found => some (.ok found.1, { l with lookahead := some found })
      | .error e => some (.error (.rejected ⟨.unreadable .peeking e, e.position, e.line⟩), l) := by
  unfold peek
  rw [on_bind, on_get]
  dsimp only
  rw [Lexer.peek]
  cases l.next <;> rfl

/-- The descent does on `l` what `o` says: its answer is the one of `o`, and it steps to a lexer at
the tokens that `o` leaves. If the depth is too `short` it may not end. -/
def Follows (line : Line) (short : Prop) (p : Descent α) (l : Lexer) (o : Outcome α n) : Prop :=
  short ∧ p.on l = none ∨
    ∃ l' steps, p.on l = some (o.toExcept, l') ∧ l' = l.after steps ∧ Stands line l' o.rest

namespace Follows

theorem mono {p : Descent α} {o : Outcome α n} (h : Follows line short p l o)
    (hshort : short → short') : Follows line short' p l o := by
  rcases h with ⟨hs, hnone⟩ | h
  · exact .inl ⟨hshort hs, hnone⟩
  · exact .inr h

theorem congr {p : Descent α} {o : Outcome α m} {o' : Outcome α n} (h : Follows line short p l o)
    (hanswer : o.toExcept = o'.toExcept) (hrest : o.rest = o'.rest) : Follows line short p l o' := by
  rw [Follows, ← hanswer, ← hrest]
  exact h

theorem widen {p : Descent α} {o : Outcome α m} {hle : m ≤ n} (h : Follows line short p l o) :
    Follows line short p l (o.widen hle) := by
  cases o <;> exact h

theorem unfinished {o : Outcome α n} (h : short) : Follows line short unfinished l o :=
  .inl ⟨h, rfl⟩

theorem pure {a : α} {lt : ts.length < n} (h : Stands line l ts) :
    Follows line short (pure a) l (.done a ts lt) := .inr ⟨l, [], rfl, rfl, h⟩

theorem throw (h : Stands line l ts) :
    Follows line short (throw e : Descent α) l (.failed e ts : Outcome α n) :=
  .inr ⟨l, [], rfl, rfl, h⟩

theorem reject {c : Cause} (h : Stands line l ts) :
    Follows line short (reject c : Descent α) l (line.reject c ts : Outcome α n) := by
  refine .inr ⟨l, [], ?_, rfl, h⟩
  change some (Except.error (ParseError.rejected ⟨c, l.position, l.line⟩), l) = _
  rw [← h.cursor, h.line_eq]
  rfl

theorem bind {p : Descent α} {f : α → Descent β} {o : Outcome α m}
    {g : α → (rest : List Lexeme) → rest.length < m → Outcome β n} (h : Follows line short p l o)
    (hf : ∀ a us lt l', o = .done a us lt → Stands line l' us →
      Follows line short (f a) l' (g a us lt)) :
    Follows line short (p >>= f) l (o.andThen g) := by
  rcases h with ⟨hs, hnone⟩ | ⟨l', steps, hp, rfl, hl'⟩
  · exact .inl ⟨hs, by rw [on_bind, hnone]⟩
  · cases o with
    | failed e rest => exact .inr ⟨_, steps, by rw [on_bind, hp]; rfl, rfl, hl'⟩
    | done a rest lt =>
      have hon : (p >>= f).on l = (f a).on (l.after steps) := by rw [on_bind, hp]; rfl
      rcases hf a rest lt _ rfl hl' with ⟨hs, hnone⟩ | ⟨l'', steps', hfa, rfl, hl''⟩
      · exact .inl ⟨hs, hon.trans hnone⟩
      · exact .inr ⟨_, steps ++ steps', hon.trans hfa, (after_append _ _ _).symm, hl''⟩

theorem map {p : Descent α} {f : α → β} {o : Outcome α n} (h : Follows line short p l o) :
    Follows line short (do return f (← p)) l (o.map f) := by
  have hbind := h.bind (f := fun a => Pure.pure (f a)) (g := fun a us lt => .done (f a) us lt)
    fun a us lt l' _ hl' => pure hl'
  cases o <;> exact hbind

section
variable {f : Token → Descent α} {o : Outcome α n}

/-- At the end of the line the current token is the end. -/
theorem current_nil (h : Stands line l []) (hf : Follows line short (f .finish) l o) :
    Follows line short (current >>= f) l o := by
  rw [show Token.finish = l.token from h.current] at hf
  exact hf

/-- Before it the current token is the first of those left. -/
theorem current_cons (h : Stands line l (x :: ts)) (hf : Follows line short (f x.token) l o) :
    Follows line short (current >>= f) l o := by
  rw [show x.token = l.token from h.current] at hf
  exact hf

/-- A look ahead finds the next of the tokens left. -/
theorem peek (h : Stands line l (x :: ts)) (hpeek : line.peek ts = .ok t)
    (hf : ∀ l', Stands line l' (x :: ts) → Follows line short (f t) l' o) :
    Follows line short (peek >>= f) l o := by
  obtain ⟨hfault, rfl⟩ := Line.peek_eq_ok.1 hpeek
  obtain ⟨t, rest, hnext, -, hstands⟩ := h.next_of_none hfault
  have hon : (Descent.peek >>= f).on l = (f t).on (l.step .peek).2 := by
    rw [on_bind, on_peek, step_peek, hnext]
  rw [← Line.current_eq, show Line.current ts = t from hstands.current] at hf
  rcases hf _ h.peek with ⟨hs, hnone⟩ | ⟨l'', steps, hfa, rfl, hl''⟩
  · exact .inl ⟨hs, hon.trans hnone⟩
  · exact .inr ⟨_, .peek :: steps, hon.trans hfa, (after_cons _ _ _).symm, hl''⟩

theorem peek_error (h : Stands line l (x :: ts)) (hpeek : line.peek ts = .error e) :
    Follows line short (Descent.peek >>= f) l (.failed e (x :: ts) : Outcome α n) := by
  unfold Line.peek at hpeek
  cases hfault : line.faultBefore? ts with
  | none =>
    rw [hfault] at hpeek
    cases hpeek
  | some e' =>
    rw [hfault] at hpeek
    cases hpeek
    obtain ⟨hnext, hline⟩ := h.next_of_fault hfault
    refine .inr ⟨l, [], ?_, rfl, h⟩
    rw [on_bind, on_peek, hnext]
    change some (Except.error (ParseError.rejected ⟨_, _, e'.line⟩), l) = _
    rw [hline]
    rfl

end

theorem advance {f : Unit → Descent α}
    {g : Unit → (us : List Lexeme) → us.length < ts.length + 1 → Outcome α n}
    (h : Stands line l (x :: ts))
    (hf : ∀ l', Stands line l' ts → Follows line short (f ()) l' (g () ts (Nat.lt_succ_self _))) :
    Follows line short (advance >>= f) l ((line.advance x ts).andThen g) := by
  have hadvance : Follows line short Descent.advance l (line.advance x ts) := by
    unfold Line.advance
    cases hfault : line.faultBefore? ts with
    | some e =>
      obtain ⟨hnext, hline⟩ := h.next_of_fault hfault
      refine .inr ⟨l, [], ?_, rfl, h⟩
      rw [on_advance, hnext]
      change some (Except.error (ParseError.rejected ⟨_, _, e.line⟩), l) = _
      rw [hline]
      rfl
    | none =>
      obtain ⟨t, rest, hnext, -, hstands⟩ := h.next_of_none hfault
      refine .inr ⟨_, [.advance], ?_, ?_, hstands⟩
      · rw [on_advance, hnext]
        rfl
      · change _ = (l.step .advance).2
        rw [step_advance, hnext]
        rfl
  refine hadvance.bind fun _ us lt l' hdone hl' => ?_
  unfold Line.advance at hdone
  split at hdone
  · cases hdone
  · cases hdone
    exact hf l' hl'

end Follows

/-! ## Monomials -/

theorem follows_exponent (h : Stands line l ts) :
    Follows line short exponent l (line.exponent ts) := by
  unfold exponent Line.exponent
  cases ts with
  | nil => exact .current_nil h (.reject h)
  | cons x ts =>
    refine .current_cons h ?_
    obtain ⟨t, stop⟩ := x
    cases t with
    | number ds =>
      dsimp only
      by_cases hpoint : '.' ∈ ds
      · rw [if_pos hpoint, if_pos hpoint]
        exact .reject h
      · rw [if_neg hpoint, if_neg hpoint]
        refine .advance h fun l' hl' => ?_
        cases Numeral.readInt ds with
        | ok n => exact .pure hl'
        | error e => exact .throw hl'
    | _ => exact .reject h

theorem follows_power {u : Powers} {v : Char} (h : Stands line l (x :: ts)) :
    Follows line short (power R u v) l (line.power R u v x ts) := by
  unfold power Line.power
  cases R.slot? v with
  | none => exact .reject h
  | some slot =>
    refine .advance h fun l' hl' => ?_
    cases ts with
    | nil => exact .current_nil hl' (.pure hl')
    | cons c ts =>
      refine .current_cons hl' ?_
      dsimp only
      by_cases hcaret : c.token = .mark .caret
      · rw [if_pos hcaret, if_pos hcaret]
        exact .advance hl' fun l'' hl'' => .widen (follows_exponent hl'').map
      · rw [if_neg hcaret, if_neg hcaret]
        exact .pure hl'

/-- The loop over letters goes on for one more round than there are tokens left, at the most. -/
theorem follows_powers (depth : Nat) {u : Powers} (h : Stands line l ts) :
    Follows line (depth ≤ ts.length) (powers R depth u) l (line.powers R u ts) := by
  induction depth generalizing l ts u with
  | zero => exact .unfinished (Nat.zero_le _)
  | succ depth ih =>
    rw [Line.powers.eq_def]
    cases ts with
    | nil => exact .current_nil h (.pure h)
    | cons x ts =>
      refine .current_cons h ?_
      obtain ⟨t, stop⟩ := x
      cases t with
      | letter v =>
        refine (follows_power h).bind fun u us lt l' _ hl' => .widen ?_
        exact (ih hl').mono fun hshort => Nat.succ_le_of_lt (Nat.lt_of_le_of_lt hshort lt)
      | _ => exact .pure h

theorem follows_unsigned (depth : Nat) (h : Stands line l ts) :
    Follows line (depth ≤ ts.length) (unsigned R depth) l (line.unsigned R ts) := by
  unfold unsigned Line.unsigned
  cases ts with
  | nil => exact .current_nil h (.reject h)
  | cons x ts =>
    refine .current_cons h ?_
    obtain ⟨t, stop⟩ := x
    cases t with
    | number ds =>
      dsimp only
      cases (Coefficient.ofLiteral ds : Except NumeralError R.Carrier) with
      | error e => exact .reject h
      | ok c =>
        refine .advance h fun l' hl' => .widen ?_
        exact (follows_powers depth hl').map.mono Nat.le_succ_of_le
    | letter v =>
      -- The first round of the loop over letters is the first letter.
      refine (follows_powers depth (u := R.noPowers) h).map.congr ?_ ?_
      all_goals
        rw [Line.powers.eq_def]
        dsimp only
        cases line.power R R.noPowers v ⟨.letter v, stop⟩ ts with
        | failed e rest => rfl
        | done u us lt =>
          dsimp only [Outcome.andThen]
          cases line.powers R u us <;> rfl
    | _ => exact .reject h

theorem follows_monomial (depth : Nat) (h : Stands line l ts) :
    Follows line (depth ≤ ts.length) (monomial R depth) l (line.monomial R ts) := by
  unfold monomial Line.monomial
  cases ts with
  | nil => exact .current_nil h (follows_unsigned depth h)
  | cons x ts =>
    refine .current_cons h ?_
    dsimp only
    by_cases hminus : x.token = .mark .minus
    · rw [if_pos hminus, if_pos hminus]
      refine .advance h fun l' hl' => .widen ?_
      exact (follows_unsigned depth hl').map.mono Nat.le_succ_of_le
    · rw [if_neg hminus, if_neg hminus]
      exact follows_unsigned depth h

/-- A monomial that does not start with a sign. -/
theorem monomial_of_startsMonomial (h : (Line.current ts).startsMonomial = true) :
    line.monomial R ts = line.unsigned R ts := by
  cases ts with
  | nil => rfl
  | cons x ts =>
    unfold Line.monomial
    dsimp only
    refine if_neg fun hminus => ?_
    change x.token.startsMonomial = true at h
    rw [hminus] at h
    cases h

/-! ## Runs -/

theorem startsMonomial_of_sign {s : Sign} (h : Line.signOf? t = some s) :
    t.startsMonomial = false := by
  unfold Line.signOf? at h
  split at h <;> first | rfl | cases h

/-- The loop over monomials goes on for one more round than there are tokens left, at the most; its
last round finds no monomial. -/
theorem follows_monomials (depth : Nat) (first : Bool) (h : Stands line l ts) :
    Follows line (depth ≤ ts.length + 1) (monomials R depth first) l
      (if first && (Line.current ts).startsMonomial then
        (line.runFrom R .plus ts).widen (Nat.le_succ _)
      else line.runRest R ts) := by
  induction depth generalizing l ts first with
  | zero => exact .unfinished (Nat.zero_le _)
  | succ depth ih =>
    -- What follows a monomial that was taken is a run without a first monomial.
    have hrest : ∀ {us l'} (s : Sign) (m : Monomial R), us.length < ts.length →
        Stands line l' us → Follows line (depth + 1 ≤ ts.length + 1)
          (do return (s, m) :: (← monomials R depth false)) l'
          ((line.runRest R us).map ((s, m) :: ·)) := fun s m hlt hl' =>
      ((ih false hl').map (f := ((s, m) :: ·))).mono fun hshort => by omega
    cases ts with
    | nil =>
      rw [if_neg (by simp [Line.current, Token.startsMonomial]), Line.runRest.eq_def]
      refine .current_nil h ?_
      change Follows line _ (if first && false then _ else _) l _
      rw [Bool.and_false]
      exact .pure h
    | cons x ts =>
      refine .current_cons h ?_
      rw [show Line.current (x :: ts) = x.token from rfl]
      cases hsign : Line.signOf? x.token with
      | some s =>
        dsimp only
        rw [startsMonomial_of_sign hsign, Bool.and_false, if_neg Bool.false_ne_true,
          Line.runRest.eq_def]
        dsimp only
        rw [hsign]
        dsimp only
        cases hpeek : line.peek ts with
        | error e => exact .peek_error h hpeek
        | ok next =>
          refine .peek h hpeek fun l' hl' => ?_
          dsimp only
          by_cases hstarts : next.startsMonomial = true
          · rw [if_pos hstarts, if_pos hstarts]
            have hcurrent : next = Line.current ts :=
              (Line.peek_eq_ok.1 hpeek).2.trans (Line.current_eq ts).symm
            refine .advance hl' fun l'' hl'' => ?_
            rw [← monomial_of_startsMonomial (hcurrent ▸ hstarts)]
            refine .bind (.mono (follows_monomial depth hl'') fun hshort => ?_) ?_
            · exact Nat.le_succ_of_le (Nat.succ_le_succ hshort)
            · exact fun m us lt l₃ _ hl₃ => .widen (hrest s m (Nat.lt_succ_of_lt lt) hl₃)
          · rw [if_neg hstarts, if_neg hstarts]
            exact .pure hl'
      | none =>
        dsimp only
        by_cases hfirst : (first && x.token.startsMonomial) = true
        · have hstarts : (Line.current (x :: ts)).startsMonomial = true :=
            (Bool.and_eq_true_iff.1 hfirst).2
          rw [if_pos hfirst, if_pos hfirst, Line.runFrom, ← monomial_of_startsMonomial hstarts]
          refine .widen (.bind (.mono (follows_monomial depth h) Nat.succ_le_succ) ?_)
          exact fun m us lt l₃ _ hl₃ => .widen (hrest .plus m lt hl₃)
        · rw [if_neg hfirst, if_neg hfirst, Line.runRest.eq_def]
          dsimp only
          rw [hsign]
          exact .pure h

theorem follows_run (depth : Nat) (h : Stands line l ts) :
    Follows line (depth ≤ ts.length + 1) (run R depth) l (line.run R ts) :=
  follows_monomials depth true h

theorem follows_run_of_starts (depth : Nat) (h : Stands line l ts)
    (hstarts : (Line.current ts).startsMonomial = true) :
    Follows line (depth ≤ ts.length + 1) (do return Expr.run (← run R depth)) l
      ((line.runFrom R .plus ts).map .run) := by
  refine (follows_run depth h).map.congr ?_ ?_
  all_goals
    rw [Line.run, if_pos hstarts]
    cases line.runFrom R .plus ts <;> rfl

/-! ## Expressions -/

theorem follows_close {a : Expr R} (h : Stands line l ts) :
    Follows line short (close R a) l (line.close R a ts) := by
  unfold close Line.close
  cases ts with
  | nil => exact .current_nil h (.reject h)
  | cons x ts =>
    refine .current_cons h ?_
    dsimp only
    by_cases hclosing : x.token = .mark .closing
    · rw [if_pos hclosing, if_pos hclosing]
      refine .advance h fun l' hl' => ?_
      cases ts with
      | nil => exact .current_nil hl' (.pure hl')
      | cons c ts =>
        refine .current_cons hl' ?_
        dsimp only
        by_cases hcaret : c.token = .mark .caret
        · rw [if_pos hcaret, if_pos hcaret]
          exact .advance hl' fun l'' hl'' => .widen (follows_exponent hl'').map
        · rw [if_neg hcaret, if_neg hcaret]
          exact .pure hl'
    · rw [if_neg hclosing, if_neg hclosing]
      exact .reject h

/-- A run that starts with a sign, told from its first monomial on. -/
theorem run_of_minus {stop : Nat} {next : Token} (hpeek : line.peek ts = .ok next)
    (hstarts : next.startsMonomial = true) :
    line.run R (⟨.mark .minus, stop⟩ :: ts) =
      (line.advance ⟨.mark .minus, stop⟩ ts).andThen fun _ us lt =>
        (line.runFrom R .minus us).widen (Nat.le_succ_of_le (Nat.le_of_lt lt)) := by
  have hminus : ¬ (Line.current (⟨.mark .minus, stop⟩ :: ts)).startsMonomial = true :=
    Bool.false_ne_true
  rw [Line.run, if_neg hminus, Line.runRest.eq_def]
  dsimp only [Line.signOf?]
  rw [hpeek]
  dsimp only
  rw [if_pos hstarts]
  congr
  funext _ us lt
  unfold Line.runFrom
  cases line.unsigned R us with
  | failed e rest => rfl
  | done m vs lt' =>
    dsimp only [Outcome.andThen]
    cases line.runRest R vs <;> rfl

theorem follows_factorWith (depth : Nat) {f s : Descent (Expr R)} (h : Stands line l ts)
    (hrun : depth ≤ ts.length + 1 → short)
    (hf : ∀ us l', us.length < ts.length → Stands line l' us →
      Follows line short f l' (line.factor R us))
    (hs : ∀ us l', us.length < ts.length → Stands line l' us →
      Follows line short s l' (line.sum R us)) :
    Follows line short (factorWith R depth f s) l (line.factor R ts) := by
  rw [Line.factor.eq_def]
  cases ts with
  | nil => exact .current_nil h (.reject h)
  | cons x ts =>
    refine .current_cons h ?_
    obtain ⟨t, stop⟩ := x
    cases t with
    | finish => exact .reject h
    | newline => exact .reject h
    | number ds => exact (follows_run_of_starts depth h rfl).mono hrun
    | letter v => exact (follows_run_of_starts depth h rfl).mono hrun
    | mark m =>
      cases m with
      | opening =>
        refine .advance h fun l' hl' => ?_
        refine (hs ts l' (Nat.lt_succ_self _) hl').bind fun a us lt l'' _ hl'' => .widen ?_
        exact follows_close hl''
      | minus =>
        dsimp only
        cases hpeek : line.peek ts with
        | error e => exact .peek_error h hpeek
        | ok next =>
          refine .peek h hpeek fun l' hl' => ?_
          dsimp only
          by_cases hstarts : next.startsMonomial = true
          · have hends : ¬ next.endsLine = true := by
              cases next <;> first | exact Bool.false_ne_true | cases hstarts
            rw [if_pos hstarts, if_neg hends]
            refine ((follows_run depth hl').mono hrun).map.congr ?_ ?_
            all_goals
              rw [run_of_minus hpeek hstarts]
              cases line.advance ⟨.mark .minus, stop⟩ ts with
              | failed e rest => rfl
              | done u us lt =>
                dsimp only [Outcome.andThen]
                rw [if_pos hstarts]
                cases line.runFrom R .minus us <;> rfl
          · rw [if_neg hstarts]
            by_cases hends : next.endsLine = true
            · rw [if_pos hends, if_pos hends]
              exact .reject hl'
            · rw [if_neg hends, if_neg hends]
              refine .advance hl' fun l'' hl'' => ?_
              rw [if_neg hstarts]
              exact .widen (hf ts l'' (Nat.lt_succ_self _) hl'').map
      | _ => exact .reject h

/-- At this depth the descent on a lexer is the descent over the tokens left, unless more tokens are
left than the depth suffices for. -/
structure Suffices (line : Line) (R : PolyRing) (depth : Nat) : Prop where
  factor {l : Lexer} {ts : List Lexeme} (h : Stands line l ts) :
    Follows line (depth < 3 * ts.length + 3) (factor R depth) l (line.factor R ts)
  productRest {l : Lexer} {ts : List Lexeme} (a : Expr R) (h : Stands line l ts) :
    Follows line (depth < 3 * ts.length + 1) (productRest R depth a) l (line.productRest R a ts)
  product {l : Lexer} {ts : List Lexeme} (h : Stands line l ts) :
    Follows line (depth < 3 * ts.length + 4) (product R depth) l (line.product R ts)
  sumRest {l : Lexer} {ts : List Lexeme} (a : Expr R) (h : Stands line l ts) :
    Follows line (depth < 3 * ts.length + 2) (sumRest R depth a) l (line.sumRest R a ts)
  sum {l : Lexer} {ts : List Lexeme} (h : Stands line l ts) :
    Follows line (depth < 3 * ts.length + 5) (sum R depth) l (line.sum R ts)

section
variable {depth : Nat} (ih : Suffices line R depth)
include ih

theorem follows_factor (h : Stands line l ts) :
    Follows line (depth + 1 < 3 * ts.length + 3) (factor R (depth + 1)) l (line.factor R ts) := by
  refine follows_factorWith depth h (fun hshort => by omega) ?_ ?_
  · exact fun us l' hus hl' => (ih.factor hl').mono fun hshort => by omega
  · exact fun us l' hus hl' => (ih.sum hl').mono fun hshort => by omega

theorem follows_productRest (a : Expr R) (h : Stands line l ts) :
    Follows line (depth + 1 < 3 * ts.length + 1) (productRest R (depth + 1) a) l
      (line.productRest R a ts) := by
  rw [Line.productRest.eq_def]
  cases ts with
  | nil => exact .current_nil h (.pure h)
  | cons x ts =>
    refine .current_cons h ?_
    dsimp only
    by_cases hstar : x.token = .mark .star
    · rw [if_pos hstar, if_pos hstar]
      refine .advance h fun l' hl' => ?_
      refine ((ih.factor hl').mono fun hshort => ?_).bind fun b us lt l'' _ hl'' => .widen ?_
      · rw [List.length_cons]
        omega
      · refine (ih.productRest _ hl'').mono fun hshort => ?_
        rw [List.length_cons]
        omega
    · rw [if_neg hstar, if_neg hstar]
      exact .pure h

theorem follows_product (h : Stands line l ts) :
    Follows line (depth + 1 < 3 * ts.length + 4) (product R (depth + 1)) l
      (line.product R ts) := by
  rw [Line.product]
  refine ((ih.factor h).mono fun hshort => by omega).bind fun a us lt l' _ hl' => .widen ?_
  exact (ih.productRest a hl').mono fun hshort => by omega

theorem follows_sumRest (a : Expr R) (h : Stands line l ts) :
    Follows line (depth + 1 < 3 * ts.length + 2) (sumRest R (depth + 1) a) l
      (line.sumRest R a ts) := by
  rw [Line.sumRest.eq_def]
  cases ts with
  | nil => exact .current_nil h (.pure h)
  | cons x ts =>
    refine .current_cons h ?_
    dsimp only
    cases Line.signOf? x.token with
    | none => exact .pure h
    | some s =>
      refine .advance h fun l' hl' => ?_
      refine ((ih.product hl').mono fun hshort => ?_).bind fun b us lt l'' _ hl'' => .widen ?_
      · rw [List.length_cons]
        omega
      · refine (ih.sumRest _ hl'').mono fun hshort => ?_
        rw [List.length_cons]
        omega

theorem follows_sum (h : Stands line l ts) :
    Follows line (depth + 1 < 3 * ts.length + 5) (sum R (depth + 1)) l (line.sum R ts) := by
  rw [Line.sum]
  refine ((ih.product h).mono fun hshort => by omega).bind fun a us lt l' _ hl' => .widen ?_
  exact (ih.sumRest a hl').mono fun hshort => by omega

end

theorem suffices_depth (line : Line) (R : PolyRing) (depth : Nat) : Suffices line R depth := by
  induction depth with
  | zero =>
    constructor <;> intros <;> exact .unfinished (by omega)
  | succ depth ih =>
    exact ⟨follows_factor ih, follows_productRest ih, follows_product ih, follows_sumRest ih,
      follows_sum ih⟩

/-! ## Lines -/

theorem follows_expectEnd (h : Stands line l ts) :
    Follows line short expectEnd l (line.expectEnd ts) := by
  unfold expectEnd Line.expectEnd
  cases ts with
  | nil => exact .current_nil h (.pure h)
  | cons x ts =>
    refine .current_cons h ?_
    change Follows line short _ l (if x.token.endsLine = true then _ else _)
    by_cases hends : x.token.endsLine = true
    · rw [if_pos hends, if_pos hends]
      exact .pure h
    · rw [if_neg hends, if_neg hends]
      exact .reject h

theorem follows_skipNewlines (depth : Nat) (h : Stands line l ts) :
    Follows line (depth ≤ ts.length) (skipNewlines depth) l (line.skipNewlines ts) := by
  induction depth generalizing l ts with
  | zero => exact .unfinished (Nat.zero_le _)
  | succ depth ih =>
    rw [Line.skipNewlines.eq_def]
    cases ts with
    | nil => exact .current_nil h (.pure h)
    | cons x ts =>
      refine .current_cons h ?_
      dsimp only
      by_cases hnewline : x.token = .newline
      · rw [if_pos hnewline, if_pos hnewline]
        exact .advance h fun l' hl' => .widen ((ih hl').mono Nat.succ_le_succ)
      · rw [if_neg hnewline, if_neg hnewline]
        exact .pure h

theorem follows_whole (depth : Nat) (h : Stands line l ts) :
    Follows line (depth < 3 * ts.length + 5) (whole R depth) l (line.whole R ts) := by
  unfold whole Line.whole
  refine ((follows_skipNewlines depth h).mono fun hshort => by omega).bind
    fun _ us lt l' _ hl' => ?_
  cases us with
  | nil => exact .current_nil hl' (.pure hl')
  | cons x us =>
    refine .current_cons hl' ?_
    rw [if_neg hl'.token_ne_finish]
    refine (((suffices_depth line R depth).sum hl').mono fun hshort => by omega).bind
      fun a vs lt' l'' _ hl'' => .widen ?_
    exact (follows_expectEnd hl'').map

end Multipoly.Descent
