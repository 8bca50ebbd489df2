import Multipoly.Proofs.Place
import Multipoly.Proofs.Statement

/-!
# The parser follows the machine

The recursive descent looks at tokens ahead and calls itself, but it takes the same tokens as the
machine that takes one at a time, and stops with an error exactly where the machine is stuck, with
the machine's complaint. One lemma a production says so under the assumption that the productions it
calls do; `Line.phrase_induction` discharges the assumptions at the end.

Results:
* `Line.Tracked`: what it means for an outcome to follow the machine;
* `Line.tracks`: factors, products and sums follow it;
* `Poly.exists_walk_of_read`, `Poly.exists_refused_of_read`: what becomes of a whole line.
-/
namespace Multipoly
open Place

namespace Line
variable {line : Line} {R : PolyRing} {p q : Place} {l : Lexeme} {ts us rest : List Lexeme}
  {e : ParseError} {d : Nat}

/-! ## Outcomes that follow the machine -/

/-- The machine takes some tokens from `p` and refuses the next one with the complaint of `e`. The
error is found at the refused token, or at the minus sign before it when the line ends there. -/
inductive Stuck (line : Line) (R : PolyRing) (p : Place) : List Lexeme → ParseError → Prop
  | here (cs : List Lexeme) {rest : List Lexeme} {q : Place} {c : Complaint}
      (hwalk : p.walk R (tokensOf cs) = .ok q) (hstep : q.step R (current rest) = .error c)
      (hdangles : ¬ q.Dangles (current rest)) :
      Stuck line R p (cs ++ rest) (c.error line.text (line.cursor rest))
  | before (cs : List Lexeme) {rest : List Lexeme} {l : Lexeme} {q : Place} {c : Complaint}
      (hwalk : p.walk R (tokensOf (cs ++ [l])) = .ok q)
      (hstep : q.step R (current rest) = .error c) (hdangles : q.Dangles (current rest)) :
      Stuck line R p (cs ++ l :: rest) (c.error line.text (line.cursor (l :: rest)))

theorem Stuck.prepend (cs : List Lexeme) (h : Stuck line R q us e)
    (hwalk : p.walk R (tokensOf cs) = .ok q) : Stuck line R p (cs ++ us) e := by
  cases h with
  | here _ hwalk' hstep hdangles =>
    rw [← List.append_assoc]
    refine .here _ ?_ hstep hdangles
    rw [tokensOf_append, walk_append hwalk, hwalk']
  | before _ hwalk' hstep hdangles =>
    rw [← List.append_assoc]
    refine .before _ ?_ hstep hdangles
    rw [List.append_assoc, tokensOf_append, walk_append hwalk, hwalk']

/-- A phrase that is read from `p` takes the machine to a place where `Post` holds of the next
token; a phrase that is rejected on a line without faults is one on which the machine is stuck. -/
def Tracked {α : Type} {n : Nat} (line : Line) (R : PolyRing) (Post : Place → Token → Prop)
    (p : Place) (ts : List Lexeme) : Outcome α n → Prop
  | .done _ rest _ =>
    ∃ cs q, ts = cs ++ rest ∧ p.walk R (tokensOf cs) = .ok q ∧ Post q (current rest)
  | .failed e _ => line.fault = none → Stuck line R p ts e

section
variable {α β : Type} {m n : Nat} {Post Post' : Place → Token → Prop}

theorem Tracked.mono {o : Outcome α n} (h : Tracked line R Post p ts o)
    (hpost : ∀ q t, Post q t → Post' q t) : Tracked line R Post' p ts o := by
  cases o with
  | done a rest lt =>
    obtain ⟨cs, q, hts, hwalk, hq⟩ := h
    exact ⟨cs, q, hts, hwalk, hpost _ _ hq⟩
  | failed e rest => exact h

theorem tracked_map {o : Outcome α n} {f : α → β} :
    Tracked line R Post p ts (o.map f) ↔ Tracked line R Post p ts o := by
  cases o <;> rfl

theorem tracked_widen {o : Outcome α m} {h : m ≤ n} :
    Tracked line R Post p ts (o.widen h) ↔ Tracked line R Post p ts o := by
  cases o <;> rfl

theorem tracked_done {a : α} {lt : ts.length < n} (h : Post p (current ts)) :
    Tracked line R Post p ts (.done a ts lt) := ⟨[], p, rfl, rfl, h⟩

/-- Goes on after tokens that the machine has taken. -/
theorem Tracked.prepend (cs : List Lexeme) {o : Outcome α n} (h : Tracked line R Post q us o)
    (hwalk : p.walk R (tokensOf cs) = .ok q) : Tracked line R Post p (cs ++ us) o := by
  cases o with
  | done a rest lt =>
    obtain ⟨ds, q', rfl, hwalk', hq'⟩ := h
    refine ⟨cs ++ ds, q', (List.append_assoc _ _ _).symm, ?_, hq'⟩
    rw [tokensOf_append, walk_append hwalk, hwalk']
  | failed e rest => exact fun hf => (h hf).prepend cs hwalk

theorem Tracked.andThen {o : Outcome α m}
    {f : α → (rest : List Lexeme) → rest.length < m → Outcome β n}
    (h : Tracked line R Post p ts o)
    (hf : ∀ a us lt q, Post q (current us) → Tracked line R Post' q us (f a us lt)) :
    Tracked line R Post' p ts (o.andThen f) := by
  cases o with
  | done a us lt =>
    obtain ⟨cs, q, rfl, hwalk, hq⟩ := h
    exact (hf a us lt q hq).prepend cs hwalk
  | failed e rest => exact h

/-- A line with a fault may be rejected anywhere. -/
theorem tracked_of_fault {fault : LexError} (h : line.faultBefore? us = some fault) :
    Tracked line R Post p ts (.failed e rest : Outcome α n) := by
  intro hfault
  rw [faultBefore_eq_none.2 fun _ => hfault] at h
  cases h

theorem tracked_advance
    {f : Unit → (us : List Lexeme) → us.length < ts.length + 1 → Outcome α n}
    (hstep : p.step R l.token = .ok q)
    (hf : Tracked line R Post q ts (f () ts (Nat.lt_succ_self _))) :
    Tracked line R Post p (l :: ts) ((line.advance l ts).andThen f) := by
  unfold advance
  split
  · exact tracked_of_fault (by assumption)
  · exact Tracked.prepend [l] hf (walk_singleton hstep)

/-- A token may be passed before it turns out to be refused. -/
theorem tracked_advance_failed {c : Complaint}
    {f : Unit → (us : List Lexeme) → us.length < ts.length + 1 → Outcome α n}
    (hstep : p.step R l.token = .error c) (hdangles : ¬ p.Dangles l.token)
    (hf : f () ts (Nat.lt_succ_self _) =
      .failed (c.error line.text (line.cursor (l :: ts))) us) :
    Tracked line R Post p (l :: ts) ((line.advance l ts).andThen f) := by
  unfold advance
  split
  · exact tracked_of_fault (by assumption)
  · change Tracked line R Post p (l :: ts) (f () ts _)
    rw [hf]
    exact fun _ => Stuck.here [] walk_nil hstep hdangles

theorem tracked_reject {c : Cause} (hstep : p.step R (current ts) = .error (.rejected c))
    (hdangles : ¬ p.Dangles (current ts)) :
    Tracked line R Post p ts (line.reject c ts : Outcome α n) :=
  fun _ => Stuck.here [] walk_nil hstep hdangles

/-- A look ahead that fails is one on a line with a fault. -/
theorem tracked_of_peek (h : line.peek us = .error e) :
    Tracked line R Post p ts (.failed e rest : Outcome α n) := by
  unfold peek at h
  split at h
  · exact tracked_of_fault (by assumption)
  · cases h

end

theorem current_of_peek {t : Token} (h : line.peek us = .ok t) : t = current us := by
  unfold peek at h
  split at h
  · cases h
  · exact (Except.ok.inj h).symm

/-! ## Monomials -/

/-- An operand is due at `p`, and the token is no end of the line after a minus sign. -/
def Due (R : PolyRing) (d : Nat) (p : Place) (t : Token) : Prop :=
  p.step R t = operand R d t ∧ ¬ p.Dangles t

/-- The machine takes the token as one after a complete operand. -/
def Settled (R : PolyRing) (d : Nat) (p : Place) (t : Token) : Prop :=
  p.step R t = goOn d t ∧ ¬ p.Dangles t

/-- More letters may follow, and no caret. -/
def InMonomial (d : Nat) (p : Place) (t : Token) : Prop :=
  p = ⟨.digits, d⟩ ∨ p = ⟨.letter, d⟩ ∧ t ≠ .mark .caret

theorem InMonomial.step_letter {v : Char} (h : InMonomial d p (.letter v)) :
    p.step R (.letter v) = letter R d v := by
  rcases h with rfl | ⟨rfl, -⟩ <;> rfl

theorem InMonomial.settled {t : Token} (h : InMonomial d p t) (ht : ∀ v, t ≠ .letter v) :
    Settled R d p t := by
  have hdangles : ¬ p.Dangles t := by
    rcases h with rfl | ⟨rfl, -⟩ <;> exact fun h => nomatch h.1
  refine ⟨?_, hdangles⟩
  rcases h with rfl | ⟨rfl, hcaret⟩
  · exact step_digits ht
  · exact Place.step_letter ht hcaret

theorem tracked_exponent (grouped : Bool) :
    Tracked line R (fun q _ => q = ⟨if grouped then .raised else .digits, d⟩)
      ⟨.caret grouped, d⟩ ts (line.exponent ts) := by
  have hdangles : ∀ t, ¬ Dangles ⟨.caret grouped, d⟩ t := fun t h => nomatch h.1
  unfold Line.exponent
  cases ts with
  | nil => exact tracked_reject rfl (hdangles _)
  | cons l ts =>
    obtain ⟨t, stop⟩ := l
    cases t with
    | number ds =>
      dsimp only
      by_cases hpoint : '.' ∈ ds
      · rw [if_pos hpoint]
        exact tracked_reject (exponent_of_point hpoint) (hdangles _)
      · rw [if_neg hpoint]
        cases hread : Numeral.readInt ds with
        | ok n => exact tracked_advance (exponent_of_ok hpoint hread) (tracked_done rfl)
        | error e =>
          -- The parser has moved past the number when it finds the error.
          exact tracked_advance_failed (exponent_of_error hpoint hread) (hdangles _) rfl
    | _ => exact tracked_reject rfl (hdangles _)

/-- A letter where the machine takes one. -/
theorem tracked_power {u : Powers} {v : Char} (hl : l.token = .letter v)
    (hstep : p.step R l.token = letter R d v) :
    Tracked line R (InMonomial d) p (l :: ts) (line.power R u v l ts) := by
  have hdangles : ¬ p.Dangles l.token := by
    rw [hl]
    exact fun h => nomatch h.2
  unfold Line.power
  cases hslot : R.slot? v with
  | none =>
    have hv : v ∉ R.vars := fun hv => by
      obtain ⟨slot, hv⟩ := R.exists_slot_iff.2 hv
      rw [hslot] at hv
      cases hv
    exact tracked_reject (hstep.trans (letter_of_notMem hv)) hdangles
  | some slot =>
    have hv : v ∈ R.vars := R.exists_slot_iff.1 ⟨slot, hslot⟩
    refine tracked_advance (hstep.trans (letter_of_mem hv)) ?_
    cases ts with
    | nil => exact tracked_done (.inr ⟨rfl, nofun⟩)
    | cons c ts =>
      dsimp only
      by_cases hcaret : c.token = .mark .caret
      · rw [if_pos hcaret]
        refine tracked_advance (q := ⟨.caret false, d⟩) (by rw [hcaret]; rfl) ?_
        rw [tracked_widen, tracked_map]
        exact (tracked_exponent false).mono fun q t hq => .inl hq
      · rw [if_neg hcaret]
        exact tracked_done (.inr ⟨rfl, hcaret⟩)

theorem tracked_powers {u : Powers} (h : InMonomial d p (current ts)) :
    Tracked line R (Settled R d) p ts (line.powers R u ts) := by
  obtain ⟨n, hn⟩ : ∃ n, ts.length = n := ⟨_, rfl⟩
  induction n using Nat.strongRecOn generalizing ts p u with
  | ind n ih =>
    rw [powers.eq_def]
    cases ts with
    | nil => exact tracked_done (h.settled nofun)
    | cons l ts =>
      obtain ⟨t, stop⟩ := l
      cases t with
      | letter v =>
        refine (tracked_power rfl h.step_letter).andThen fun u us lt q hq => ?_
        rw [tracked_widen]
        rw [List.length_cons] at hn
        exact ih us.length (by omega) hq rfl
      | _ => exact tracked_done (h.settled nofun)

theorem tracked_unsigned (h : Due R d p (current ts))
    (hstarts : (current ts).startsMonomial = true) :
    Tracked line R (Settled R d) p ts (line.unsigned R ts) := by
  obtain ⟨hstep, hdangles⟩ := h
  unfold Line.unsigned
  cases ts with
  | nil => cases hstarts
  | cons l ts =>
    obtain ⟨t, stop⟩ := l
    cases t with
    | number ds =>
      dsimp only
      cases hread : (Coefficient.ofLiteral ds : Except NumeralError R.Carrier) with
      | error e => exact tracked_reject (hstep.trans (operand_of_error hread)) hdangles
      | ok c =>
        refine tracked_advance (hstep.trans (operand_of_ok hread)) ?_
        rw [tracked_widen, tracked_map]
        exact tracked_powers (.inl rfl)
    | letter v =>
      refine (tracked_power rfl hstep).andThen fun u us lt q hq => ?_
      rw [tracked_widen, tracked_map]
      exact tracked_powers hq
    | _ => cases hstarts

/-! ## Runs -/

theorem goOn_sign {t : Token} {s : Sign} (h : signOf? t = some s) :
    (goOn d t : Except Complaint Place) = .ok ⟨.operand, d⟩ := by
  unfold signOf? at h
  split at h <;> first | rfl | cases h

theorem due_operand (d : Nat) (t : Token) : Due R d ⟨.operand, d⟩ t :=
  ⟨rfl, fun h => nomatch h.1⟩

theorem tracked_runRest (h : Settled R d p (current ts)) :
    Tracked line R (Settled R d) p ts (line.runRest R ts) := by
  obtain ⟨n, hn⟩ : ∃ n, ts.length = n := ⟨_, rfl⟩
  induction n using Nat.strongRecOn generalizing ts p with
  | ind n ih =>
    rw [runRest.eq_def]
    cases ts with
    | nil => exact tracked_done h
    | cons l ts =>
      dsimp only
      cases hsign : signOf? l.token with
      | none => exact tracked_done h
      | some s =>
        dsimp only
        cases hpeek : line.peek ts with
        | error e => exact tracked_of_peek hpeek
        | ok next =>
          dsimp only
          by_cases hstarts : next.startsMonomial = true
          · rw [if_pos hstarts]
            rw [current_of_peek hpeek] at hstarts
            refine tracked_advance (h.1.trans (goOn_sign hsign)) ?_
            refine (tracked_unsigned (due_operand d _) hstarts).andThen fun m us lt q hq => ?_
            rw [tracked_widen, tracked_map]
            rw [List.length_cons] at hn
            exact ih us.length (by omega) hq rfl
          · rw [if_neg hstarts]
            exact tracked_done h

theorem tracked_runFrom {s : Sign} (h : Due R d p (current ts))
    (hstarts : (current ts).startsMonomial = true) :
    Tracked line R (Settled R d) p ts (line.runFrom R s ts) := by
  unfold runFrom
  refine (tracked_unsigned h hstarts).andThen fun m us lt q hq => ?_
  rw [tracked_widen, tracked_map]
  exact tracked_runRest hq

/-! ## Expressions -/

/-- What follows a complete product: no star. -/
def AfterProduct (R : PolyRing) (d : Nat) (p : Place) (t : Token) : Prop :=
  Settled R d p t ∧ t ≠ .mark .star

/-- What follows a complete sum: no operator between operands. -/
def AfterSum (R : PolyRing) (d : Nat) (p : Place) (t : Token) : Prop :=
  AfterProduct R d p t ∧ signOf? t = none

theorem goOn_of_afterSum {t : Token} (h : AfterSum R (d + 1) p t) (ht : t ≠ .mark .closing) :
    p.step R t = .error (.rejected .unclosed) := by
  obtain ⟨⟨⟨hstep, -⟩, hstar⟩, hsign⟩ := h
  rw [hstep]
  cases t with
  | mark m =>
    cases m <;> first | rfl | exact absurd rfl hstar | exact absurd rfl ht | cases hsign
  | _ => rfl

theorem tracked_close {e : Expr R} (h : AfterSum R (d + 1) p (current ts)) :
    Tracked line R (Settled R d) p ts (line.close R e ts) := by
  unfold close
  cases ts with
  | nil => exact tracked_reject (goOn_of_afterSum h nofun) h.1.1.2
  | cons l ts =>
    dsimp only
    by_cases hclosing : l.token = .mark .closing
    · rw [if_pos hclosing]
      refine tracked_advance (q := ⟨.closed, d⟩) (h.1.1.1.trans ?_) ?_
      · change goOn (d + 1) l.token = _
        rw [hclosing]
        rfl
      · cases ts with
        | nil => exact tracked_done ⟨rfl, fun h => nomatch h.1⟩
        | cons c ts =>
          dsimp only
          by_cases hcaret : c.token = .mark .caret
          · rw [if_pos hcaret]
            refine tracked_advance (q := ⟨.caret true, d⟩) (by rw [hcaret]; rfl) ?_
            rw [tracked_widen, tracked_map]
            refine (tracked_exponent true).mono fun q t hq => ?_
            subst hq
            exact ⟨rfl, fun h => nomatch h.1⟩
          · rw [if_neg hcaret]
            exact tracked_done ⟨step_closed hcaret, fun h => nomatch h.1⟩
    · rw [if_neg hclosing]
      exact tracked_reject (goOn_of_afterSum h hclosing) h.1.1.2

/-- How the machine takes the token after a phrase. -/
def After (R : PolyRing) : Phrase.Level → Nat → Place → Token → Prop
  | .factor => Settled R
  | .product => AfterProduct R
  | .sum => AfterSum R

/-- Where an operand is due, the parser of the phrase follows the machine. -/
def Tracks (line : Line) (R : PolyRing) (l : Phrase.Level) (ts : List Lexeme) : Prop :=
  ∀ d p, Due R d p (current ts) → Tracked line R (After R l d) p ts (line.phrase R l ts)

theorem tracks_factor
    (ih : ∀ us : List Lexeme, us.length < ts.length →
      Tracks line R .factor us ∧ Tracks line R .sum us) :
    Tracks line R .factor ts := by
  have hrun : ∀ {d : Nat} {p : Place} {l : Lexeme} {us : List Lexeme}, Due R d p l.token →
      l.token.startsMonomial = true → Tracked line R (Settled R d) p (l :: us)
        ((line.runFrom R .plus (l :: us)).map Expr.run) := fun h hstarts =>
    tracked_map.2 (tracked_runFrom h hstarts)
  intro d p h
  change Tracked line R (Settled R d) p ts (line.factor R ts)
  rw [factor.eq_def]
  cases ts with
  | nil => exact tracked_reject h.1 h.2
  | cons l ts =>
    have hlt : ts.length < (l :: ts).length := Nat.lt_succ_self _
    obtain ⟨t, stop⟩ := l
    cases t with
    | finish => exact tracked_reject h.1 h.2
    | newline => exact tracked_reject h.1 h.2
    | number ds => exact hrun h rfl
    | letter v => exact hrun h rfl
    | mark m =>
      cases m with
      | opening =>
        have hsum := (ih ts hlt).2 (d + 1) ⟨.operand, d + 1⟩ (due_operand _ _)
        refine tracked_advance h.1 (hsum.andThen fun e us lt q hq => ?_)
        rw [tracked_widen]
        exact tracked_close hq
      | minus =>
        have hstep : p.step R (.mark .minus) = .ok ⟨.negated, d⟩ := h.1
        dsimp only
        cases hpeek : line.peek ts with
        | error e => exact tracked_of_peek hpeek
        | ok next =>
          dsimp only
          rw [current_of_peek hpeek]
          by_cases hends : (current ts).endsLine = true
          · rw [if_pos hends]
            -- The machine takes the sign and is stuck at the end of the line.
            have hstuck : step R ⟨.negated, d⟩ (current ts) = .error (.rejected .danglingMinus) :=
              if_pos hends
            exact fun _ => Stuck.before [] (walk_singleton hstep) hstuck ⟨rfl, hends⟩
          · have hdue : Due R d ⟨.negated, d⟩ (current ts) := ⟨if_neg hends, fun h => hends h.2⟩
            rw [if_neg hends]
            refine tracked_advance hstep ?_
            by_cases hstarts : (current ts).startsMonomial = true
            · rw [if_pos hstarts, tracked_widen, tracked_map]
              exact tracked_runFrom hdue hstarts
            · rw [if_neg hstarts, tracked_widen, tracked_map]
              exact (ih ts hlt).1 _ _ hdue
      | _ => exact tracked_reject h.1 h.2

theorem tracked_productRest {n : Nat} {e : Expr R}
    (ih : ∀ us : List Lexeme, us.length < n → Tracks line R .factor us) (hn : ts.length ≤ n)
    (h : Settled R d p (current ts)) :
    Tracked line R (AfterProduct R d) p ts (line.productRest R e ts) := by
  obtain ⟨k, hk⟩ : ∃ k, ts.length = k := ⟨_, rfl⟩
  induction k using Nat.strongRecOn generalizing ts p e with
  | ind k ihk =>
    rw [productRest.eq_def]
    cases ts with
    | nil => exact tracked_done ⟨h, nofun⟩
    | cons l ts =>
      rw [List.length_cons] at hn hk
      dsimp only
      by_cases hstar : l.token = .mark .star
      · have hstep : p.step R l.token = .ok ⟨.operand, d⟩ := h.1.trans (by
          change goOn d l.token = _
          rw [hstar]
          rfl)
        have hfactor := ih ts (by omega) d ⟨.operand, d⟩ (due_operand d _)
        rw [if_pos hstar]
        refine tracked_advance hstep (hfactor.andThen fun e us lt q hq => ?_)
        rw [tracked_widen]
        exact ihk us.length (by omega) (by omega) hq rfl
      · rw [if_neg hstar]
        exact tracked_done ⟨h, hstar⟩

theorem tracks_product (ih : ∀ us : List Lexeme, us.length ≤ ts.length → Tracks line R .factor us) :
    Tracks line R .product ts := by
  intro d p h
  change Tracked line R (AfterProduct R d) p ts (line.product R ts)
  rw [product]
  refine (ih ts (Nat.le_refl _) d p h).andThen fun e us lt q hq => ?_
  rw [tracked_widen]
  exact tracked_productRest (fun us hus => ih us (Nat.le_of_lt hus)) (Nat.le_of_lt lt) hq

theorem tracked_sumRest {n : Nat} {e : Expr R}
    (ih : ∀ us : List Lexeme, us.length < n → Tracks line R .product us) (hn : ts.length ≤ n)
    (h : AfterProduct R d p (current ts)) :
    Tracked line R (AfterSum R d) p ts (line.sumRest R e ts) := by
  obtain ⟨k, hk⟩ : ∃ k, ts.length = k := ⟨_, rfl⟩
  induction k using Nat.strongRecOn generalizing ts p e with
  | ind k ihk =>
    rw [sumRest.eq_def]
    cases ts with
    | nil => exact tracked_done ⟨h, rfl⟩
    | cons l ts =>
      rw [List.length_cons] at hn hk
      dsimp only
      cases hsign : signOf? l.token with
      | none => exact tracked_done ⟨h, hsign⟩
      | some s =>
        have hproduct := ih ts (by omega) d ⟨.operand, d⟩ (due_operand d _)
        refine tracked_advance (h.1.1.trans (goOn_sign hsign))
          (hproduct.andThen fun e us lt q hq => ?_)
        rw [tracked_widen]
        exact ihk us.length (by omega) (by omega) hq rfl

theorem tracks_sum (ih : ∀ us : List Lexeme, us.length ≤ ts.length → Tracks line R .product us) :
    Tracks line R .sum ts := by
  intro d p h
  change Tracked line R (AfterSum R d) p ts (line.sum R ts)
  rw [sum]
  refine (ih ts (Nat.le_refl _) d p h).andThen fun e us lt q hq => ?_
  rw [tracked_widen]
  exact tracked_sumRest (fun us hus => ih us (Nat.le_of_lt hus)) (Nat.le_of_lt lt) hq

/-- The parser follows the machine at all tokens. -/
theorem tracks (line : Line) (R : PolyRing) : ∀ l ts, Tracks line R l ts :=
  phrase_induction (fun _ => tracks_factor) (fun _ => tracks_product) (fun _ => tracks_sum)

/-! ## Lines -/

theorem tracked_skipNewlines :
    Tracked line R (fun q t => q = initial ∧ t ≠ .newline) initial ts (line.skipNewlines ts) := by
  induction ts with
  | nil =>
    rw [skipNewlines.eq_def]
    exact tracked_done ⟨rfl, nofun⟩
  | cons l ts ih =>
    rw [skipNewlines.eq_def]
    dsimp only
    by_cases hl : l.token = .newline
    · rw [if_pos hl]
      refine tracked_advance (by rw [hl]; rfl) ?_
      rw [tracked_widen]
      exact ih
    · rw [if_neg hl]
      exact tracked_done ⟨rfl, hl⟩

theorem due_initial {t : Token} (ht : t.endsLine = false) : Due R 0 initial t := by
  refine ⟨?_, fun h => nomatch h.1⟩
  cases t with
  | finish => cases ht
  | newline => cases ht
  | _ => rfl

theorem AfterSum.step {t : Token} (h : AfterSum R 0 p t) :
    p.step R t = if t.endsLine then .ok ⟨.past, 0⟩ else .error (.rejected (.trailing t)) := by
  obtain ⟨⟨⟨hstep, -⟩, hstar⟩, hsign⟩ := h
  rw [hstep]
  cases t with
  | mark m => cases m <;> first | rfl | exact absurd rfl hstar | cases hsign
  | _ => rfl

theorem tracked_expectEnd (h : AfterSum R 0 p (current ts)) :
    Tracked line R (fun q t => q.step R t = .ok ⟨.past, 0⟩) p ts (line.expectEnd ts) := by
  have hstep := h.step
  unfold expectEnd
  by_cases hends : (current ts).endsLine = true
  · rw [if_pos hends] at hstep ⊢
    exact tracked_done hstep
  · rw [if_neg hends] at hstep ⊢
    exact tracked_reject hstep h.1.1.2

theorem tracked_whole (hts : .finish ∉ tokensOf ts) :
    Tracked line R (fun q t => q.step R t = .ok ⟨.past, 0⟩) initial ts (line.whole R ts) := by
  have hskip := @tracked_skipNewlines line R ts
  unfold whole
  cases hskipped : line.skipNewlines ts with
  | failed e rest => rw [hskipped] at hskip; exact hskip
  | done u us lt =>
    rw [hskipped] at hskip
    obtain ⟨cs, q, rfl, hwalk, rfl, hnewline⟩ := hskip
    refine Tracked.prepend cs ?_ hwalk
    cases us with
    | nil => exact tracked_done rfl
    | cons l us =>
      have hends : l.token.endsLine = false := by
        obtain ⟨t, stop⟩ := l
        cases t with
        | finish => exact absurd (by simp [tokensOf]) hts
        | newline => exact absurd rfl hnewline
        | _ => rfl
      refine (tracks line R .sum (l :: us) 0 initial (due_initial hends)).andThen
        fun e vs lt q hq => ?_
      rw [tracked_widen, tracked_map]
      exact tracked_expectEnd hq

/-- The cursor just past the token at a place of the sequence. -/
def stopAt (l : Line) (i : Nat) : Nat := l.cursor (l.lexemes.drop i)

/-- What the sequence holds after some tokens of the line: the token that is then current, except
where a fault stands. -/
theorem sequence_append {cs : List Lexeme} (hts : line.lexemes = cs ++ rest) :
    (line.fault ≠ none ∧ line.sequence = tokensOf cs) ∨
      ∃ post, line.sequence = tokensOf cs ++ current rest :: post := by
  unfold sequence
  rw [hts, tokensOf_append, List.append_assoc]
  cases rest with
  | nil =>
    cases hf : line.fault with
    | none => exact .inr ⟨[], rfl⟩
    | some fault => exact .inl ⟨Option.some_ne_none fault, List.append_nil _⟩
  | cons l rest => exact .inr ⟨_, rfl⟩

/-- The machine walks through all tokens of a line whose statement it has passed. -/
theorem exists_walk_sequence {cs : List Lexeme} (hts : line.lexemes = cs ++ rest)
    (hwalk : initial.walk R (tokensOf cs) = .ok q)
    (hstep : q.step R (current rest) = .ok ⟨.past, 0⟩) :
    ∃ q, initial.walk R line.sequence = .ok q := by
  rcases sequence_append hts with ⟨-, hsequence⟩ | ⟨post, hsequence⟩
  · exact ⟨q, hsequence ▸ hwalk⟩
  · refine ⟨⟨.past, 0⟩, ?_⟩
    rw [hsequence, walk_append hwalk, walk_cons hstep, walk_past rfl]

/-- Where the machine is stuck on a line without faults. -/
theorem Stuck.refused (h : Stuck line R initial line.lexemes e) (hf : line.fault = none) :
    ∃ pre t post q c i, line.sequence = pre ++ t :: post ∧ initial.walk R pre = .ok q ∧
      q.step R t = .error c ∧ e = c.error line.text (line.stopAt i) ∧
      (¬ q.Dangles t ∧ i = pre.length ∨ q.Dangles t ∧ i + 1 = pre.length) := by
  generalize hlexemes : line.lexemes = ts at h
  have hsplit : ∀ {cs rest}, line.lexemes = cs ++ rest →
      ∃ post, line.sequence = tokensOf cs ++ current rest :: post := fun hts =>
    (sequence_append hts).resolve_left fun h => h.1 hf
  cases h with
  | @here cs rest q c hwalk hstep hdangles =>
    obtain ⟨post, hpost⟩ := hsplit hlexemes
    refine ⟨_, _, post, q, c, cs.length, hpost, hwalk, hstep, ?_, .inl ⟨hdangles, ?_⟩⟩
    · rw [stopAt, hlexemes, List.drop_left]
    · rw [length_tokensOf]
  | @before cs rest l q c hwalk hstep hdangles =>
    obtain ⟨post, hpost⟩ := @hsplit (cs ++ [l]) rest (by simp [hlexemes])
    refine ⟨_, _, post, q, c, cs.length, hpost, hwalk, hstep, ?_, .inr ⟨hdangles, ?_⟩⟩
    · rw [stopAt, hlexemes, List.drop_left]
    · rw [length_tokensOf, List.length_append, List.length_singleton]

end Line

namespace Poly
variable {R : PolyRing} {text : List Char} {e : ParseError}

/-- The machine walks through all tokens of a line that is read. -/
theorem exists_walk_of_read {p : Poly R} (h : read R text = .ok p) :
    ∃ q, initial.walk R (Line.scan alphabet text).sequence = .ok q := by
  have hfinish := (Line.scanned_lexemes alphabet text).2
  unfold read at h
  generalize Line.scan alphabet text = line at h hfinish ⊢
  dsimp only at h
  cases hstart : line.start with
  | error e => rw [hstart] at h; cases h
  | ok ts =>
    obtain ⟨-, rfl⟩ := Line.start_eq_ok.1 hstart
    have htracked := @Line.tracked_whole line R _ hfinish
    rw [hstart] at h
    cases houtcome : line.whole R line.lexemes with
    | failed e rest => simp [bind, Except.bind, houtcome, Outcome.toExcept] at h
    | done a rest lt =>
      rw [houtcome] at htracked
      obtain ⟨cs, q, hts, hwalk, hstep⟩ := htracked
      exact Line.exists_walk_sequence hts hwalk hstep

/-- On a line without faults that is rejected the machine refuses a token, with the complaint of the
error. The error is found at this token, or at the one before it if that is a minus sign in front of
an operand and the line ends there. -/
theorem exists_refused_of_read (h : read R text = .error e)
    (hf : (Line.scan alphabet text).fault = none) :
    ∃ pre t post q c i, (Line.scan alphabet text).sequence = pre ++ t :: post ∧
      initial.walk R pre = .ok q ∧ q.step R t = .error c ∧
      e = c.error text ((Line.scan alphabet text).stopAt i) ∧
      (¬ q.Dangles t ∧ i = pre.length ∨ q.Dangles t ∧ i + 1 = pre.length) := by
  have hfinish := (Line.scanned_lexemes alphabet text).2
  refine @Line.Stuck.refused (Line.scan alphabet text) R e ?_ hf
  unfold read at h
  generalize Line.scan alphabet text = line at h hf hfinish ⊢
  dsimp only at h
  have htracked := @Line.tracked_whole line R _ hfinish
  rw [Line.start_eq_ok.2 ⟨Line.faultBefore_eq_none.2 fun _ => hf, rfl⟩] at h
  cases houtcome : line.whole R line.lexemes with
  | done a rest lt => simp [bind, Except.bind, houtcome, Outcome.toExcept, pure, Except.pure] at h
  | failed e' rest =>
    rw [houtcome] at htracked
    simp only [bind, Except.bind, houtcome, Outcome.toExcept, Except.error.injEq] at h
    exact h ▸ htracked hf

end Poly
end Multipoly
