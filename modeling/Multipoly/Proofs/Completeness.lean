import Multipoly.Proofs.Soundness

/-!
# Completeness of the parser

Every reading of the tokens whose rest cannot go on is what the recursive descent reads. A reading
does not say where a product or a sum ends, so its completeness is stated with what comes after: if
the loop of products or sums goes on from the rest with the expression read so far, the whole phrase
is read.

Results:
* `Line.done_unsigned`, `Line.done_runFrom`: monomials and runs;
* `Line.complete`: each kind of phrase, by induction on its reading;
* `Line.done_of_reads`: a sum whose rest cannot go on.
-/
namespace Multipoly
open Phrase

namespace Phrase
variable {R : PolyRing} {ts rest : List Token} {fs : List (Nat × Nat)} {m : Monomial R}
  {ms : Run R} {l : Level}

/-! ## What may follow -/

/-- What may follow a phrase of each kind: nothing that its last operand would take too. -/
def Follows (l : Level) (ts : List Token) : Prop :=
  ∀ t ∈ ts.head?, t ≠ .mark .caret ∧ (∀ v, t ≠ .letter v) ∧ (l = .sum → t ≠ .mark .star)

theorem follows_cons {t : Token} (h : t ≠ .mark .caret) (h' : ∀ v, t ≠ .letter v)
    (h'' : l = .sum → t ≠ .mark .star) : Follows l (t :: ts) :=
  forall_head_cons ⟨h, h', h''⟩

theorem follows_sign (s : Sign) : Follows l (s.token :: ts) := by
  cases s with
  | plus => exact follows_cons (by simp [Sign.token]) (by simp [Sign.token]) (by simp [Sign.token])
  | minus => exact follows_cons (by simp [Sign.token]) (by simp [Sign.token]) (by simp [Sign.token])

theorem Follows.factor (h : Follows l ts) : Follows .factor ts :=
  fun t ht => ⟨(h t ht).1, (h t ht).2.1, nofun⟩

theorem Follows.product (h : Follows l ts) : Follows .product ts :=
  fun t ht => ⟨(h t ht).1, (h t ht).2.1, nofun⟩

theorem Follows.ne_star (h : Follows .sum ts) : ∀ t ∈ ts.head?, t ≠ .mark .star :=
  fun t ht => (h t ht).2.2 rfl

/-- Letters start with a letter or at what follows them. -/
theorem Letters.head_ne_caret (h : Letters R ts fs rest) (hr : Follows .factor rest) :
    ∀ t ∈ ts.head?, t ≠ .mark .caret := by
  cases h with
  | nil _ => exact fun t ht => (hr t ht).1
  | plain _ _ => simp
  | raised _ _ _ => simp

/-- The rest of a run starts with a sign or at what follows the run. -/
theorem RunRest.follows (h : RunRest R ts ms rest) (hr : Follows .factor rest) :
    Follows .factor ts := by
  cases h with
  | stop _ => exact hr
  | next _ _ => exact follows_sign _

end Phrase

namespace Line
variable {line : Line} {R : PolyRing} {ts us : List Lexeme} {t r : List Token}

/-- The fault of the line, if it has one, stands behind some token that is no sign; so it is not met
by looking one token past a sign. -/
def Clear (line : Line) (ts : List Token) : Prop :=
  line.fault = none ∨ ∃ t ∈ ts, ∀ s : Sign, t ≠ s.token

theorem Clear.mono (h : Clear line r) (hs : r <:+ t) : Clear line t := by
  rcases h with h | ⟨u, hu, hsign⟩
  · exact .inl h
  · exact .inr ⟨u, hs.subset hu, hsign⟩

theorem Clear.faultBefore (h : Clear line (tokensOf ts)) : line.faultBefore? ts = none := by
  rw [faultBefore_eq_none]
  intro heq
  subst heq
  rcases h with h | ⟨_, hu, _⟩
  · exact h
  · cases hu

theorem Clear.of_sign {s : Sign} (h : Clear line (s.token :: t)) : Clear line t := by
  rcases h with h | ⟨u, hu, hsign⟩
  · exact .inl h
  · rcases List.mem_cons.1 hu with rfl | hu
    · exact absurd rfl (hsign s)
    · exact .inr ⟨u, hu, hsign⟩

/-! ## Monomials -/

theorem done_power_plain {u : Powers} {v : Char} {slot : Nat} {l : Lexeme}
    (hv : R.slot? v = some slot) (hf : line.faultBefore? ts = none)
    (hcaret : ∀ t ∈ (tokensOf ts).head?, t ≠ .mark .caret) :
    (line.power R u v l ts).Done (u.set slot 1) ts := by
  unfold power
  rw [hv]
  dsimp only
  rw [done_advance]
  refine ⟨hf, ?_⟩
  cases ts with
  | nil => simp
  | cons c ts =>
    dsimp only
    rw [if_neg (hcaret c.token rfl), Outcome.done_done]
    exact ⟨rfl, rfl⟩

theorem done_power_raised {u : Powers} {v : Char} {slot stop stop' : Nat} {l : Lexeme}
    {ds : List Char} (hv : R.slot? v = some slot) (hd : Literal.IsExponent ds)
    (hs : Scanned (.number ds :: tokensOf ts)) (hf : line.faultBefore? ts = none) :
    (line.power R u v l (⟨.mark .caret, stop⟩ :: ⟨.number ds, stop'⟩ :: ts)).Done
      (u.set slot (Literal.natural ds)) ts := by
  unfold power
  rw [hv]
  dsimp only
  rw [done_advance]
  refine ⟨rfl, ?_⟩
  dsimp only
  rw [if_pos rfl, done_advance, Outcome.done_widen, Outcome.done_map]
  have hs' : Scanned (tokensOf (⟨.number ds, stop'⟩ :: ts)) := hs
  exact ⟨rfl, _, (done_exponent hs').2 ⟨ds, stop', rfl, hd, rfl, hf⟩, rfl⟩

theorem done_powers {fs : List (Nat × Nat)} (h : Letters R t fs r) (ht : tokensOf ts = t)
    (hs : Scanned t) (hclear : Clear line r) (hr : Follows .factor r) (u : Powers) :
    ∃ us, tokensOf us = r ∧ (line.powers R u ts).Done (setAll u fs) us := by
  induction h generalizing ts u with
  | nil t =>
    refine ⟨ts, ht, ?_⟩
    rw [powers.eq_def]
    cases ts with
    | nil => simp
    | cons l ts =>
      have hletter := (hr l.token (by rw [← ht]; rfl)).2.1
      dsimp only
      split
      · rename_i v hv
        exact absurd hv (hletter v)
      · rw [setAll_nil, Outcome.done_done]
        exact ⟨rfl, rfl⟩
  | @plain v slot t r fs hv h ih =>
    obtain ⟨stop, ts, rfl, hts⟩ := tokensOf_eq_cons ht
    obtain ⟨us, hus, hdone⟩ := ih hts hs.tail hclear hr (u.set slot 1)
    refine ⟨us, hus, ?_⟩
    have hf : line.faultBefore? ts = none := (hts ▸ hclear.mono h.suffix).faultBefore
    have hpower := @done_power_plain line R ts u v slot ⟨.letter v, stop⟩ hv hf
      (hts ▸ h.head_ne_caret hr)
    rw [powers.eq_def]
    simp only [Outcome.done_andThen, Outcome.done_widen]
    exact ⟨_, ts, hpower.length_lt, hpower, hdone⟩
  | @raised v slot ds t r fs hv hd h ih =>
    obtain ⟨stop, ts₁, rfl, hts₁⟩ := tokensOf_eq_cons ht
    obtain ⟨stop', ts₂, rfl, hts₂⟩ := tokensOf_eq_cons hts₁
    obtain ⟨stop'', ts, rfl, hts⟩ := tokensOf_eq_cons hts₂
    obtain ⟨us, hus, hdone⟩ := ih hts hs.tail.tail.tail hclear hr (u.set slot (Literal.natural ds))
    refine ⟨us, hus, ?_⟩
    have hf : line.faultBefore? ts = none := (hts ▸ hclear.mono h.suffix).faultBefore
    have hpower := @done_power_raised line R ts u v slot stop' stop'' ⟨.letter v, stop⟩ ds hv hd
      (hts ▸ hs.tail.tail) hf
    rw [powers.eq_def]
    simp only [Outcome.done_andThen, Outcome.done_widen]
    exact ⟨_, ts, hpower.length_lt, hpower, hdone⟩

theorem done_unsigned {m : Monomial R} (h : Unsigned R t m r) (ht : tokensOf ts = t)
    (hs : Scanned t) (hclear : Clear line r) (hr : Follows .factor r) :
    ∃ us, tokensOf us = r ∧ (line.unsigned R ts).Done m us := by
  cases h with
  | @number ds t _ fs hd h =>
    obtain ⟨stop, ts, rfl, hts⟩ := tokensOf_eq_cons ht
    obtain ⟨us, hus, hdone⟩ := done_powers h hts hs.tail hclear hr R.noPowers
    have hf : line.faultBefore? ts = none := (hts ▸ hclear.mono h.suffix).faultBefore
    have hc := (Literal.ofLiteral_eq_ok_iff (hs.1 ds List.mem_cons_self)).2 ⟨hd, rfl⟩
    rw [setAll_noPowers] at hdone
    refine ⟨us, hus, ?_⟩
    unfold unsigned
    simp only [hc]
    rw [done_advance, Outcome.done_widen, Outcome.done_map]
    exact ⟨hf, _, hdone, rfl⟩
  | @letters _ _ fs hne h =>
    obtain ⟨us, hus, hdone⟩ := done_powers h ht hs hclear hr R.noPowers
    rw [setAll_noPowers] at hdone
    refine ⟨us, hus, ?_⟩
    -- The parser of powers takes the first letter as the parser of monomials does.
    have hletter : ∃ v stop ts', ts = ⟨.letter v, stop⟩ :: ts' := by
      cases h with
      | nil _ => exact absurd rfl hne
      | plain _ _ =>
        obtain ⟨stop, ts', rfl, -⟩ := tokensOf_eq_cons ht
        exact ⟨_, stop, ts', rfl⟩
      | raised _ _ _ =>
        obtain ⟨stop, ts', rfl, -⟩ := tokensOf_eq_cons ht
        exact ⟨_, stop, ts', rfl⟩
    obtain ⟨v, stop, ts, rfl⟩ := hletter
    rw [powers.eq_def] at hdone
    simp only [Outcome.done_andThen, Outcome.done_widen] at hdone
    obtain ⟨u, vs, lt, hpower, hdone⟩ := hdone
    unfold unsigned
    simp only [Outcome.done_andThen, Outcome.done_widen, Outcome.done_map]
    exact ⟨u, vs, lt, hpower, _, hdone, rfl⟩

/-! ## Runs -/

theorem done_runRest {ms : Run R} (h : RunRest R t ms r) (ht : tokensOf ts = t) (hs : Scanned t)
    (hclear : Clear line r) (hr : Follows .factor r) :
    ∃ us, tokensOf us = r ∧ (line.runRest R ts).Done ms us := by
  induction h generalizing ts with
  | @stop t hstop =>
    refine ⟨ts, ht, ?_⟩
    rw [runRest.eq_def]
    cases ts with
    | nil => simp
    | cons l ts =>
      dsimp only
      split
      · simp
      · rename_i s hsign
        rw [tokensOf_cons, signOf_eq_some.1 hsign] at ht
        have hf : line.faultBefore? ts = none := (ht ▸ hclear).of_sign.faultBefore
        have hpeek := peek_eq_ok.2 ⟨hf, rfl⟩
        rw [← ht, continuesRun_cons] at hstop
        rw [hpeek]
        dsimp only
        rw [if_neg hstop, Outcome.done_done]
        exact ⟨rfl, rfl⟩
  | @next s m ms t u r hm h ih =>
    obtain ⟨stop, ts, rfl, hts⟩ := tokensOf_eq_cons ht
    have hclear' : Clear line u := hclear.mono h.suffix
    obtain ⟨vs, hvs, hm'⟩ := done_unsigned hm hts hs.tail hclear' (h.follows hr)
    obtain ⟨us, hus, hms⟩ := ih hvs (hs.tail.mono hm.suffix) hclear hr
    refine ⟨us, hus, ?_⟩
    have hf : line.faultBefore? ts = none := (hts ▸ hclear'.mono hm.suffix).faultBefore
    have hpeek := peek_eq_ok.2 ⟨hf, rfl⟩
    obtain ⟨first, t', rfl, hstarts⟩ := hm.starts
    rw [hts] at hpeek
    rw [runRest.eq_def]
    simp only [signOf_eq_some.2 rfl, hpeek, List.headD_cons]
    rw [if_pos hstarts, done_advance]
    simp only [Outcome.done_andThen, Outcome.done_widen, Outcome.done_map]
    exact ⟨hf, m, vs, hm'.length_lt, hm', ms, hms, rfl⟩

theorem done_runFrom {s : Sign} {m : Monomial R} {ms : Run R} {u : List Token}
    (hm : Unsigned R t m u) (h : RunRest R u ms r) (ht : tokensOf ts = t) (hs : Scanned t)
    (hclear : Clear line r) (hr : Follows .factor r) :
    ∃ us, tokensOf us = r ∧ (line.runFrom R s ts).Done ((s, m) :: ms) us := by
  obtain ⟨vs, hvs, hm'⟩ := done_unsigned hm ht hs (hclear.mono h.suffix) (h.follows hr)
  obtain ⟨us, hus, hms⟩ := done_runRest h hvs (hs.mono hm.suffix) hclear hr
  refine ⟨us, hus, ?_⟩
  unfold runFrom
  simp only [Outcome.done_andThen, Outcome.done_widen, Outcome.done_map]
  exact ⟨m, vs, hm'.length_lt, hm', ms, hms, rfl⟩

/-! ## Groups -/

theorem done_close {e : Expr R} (ht : tokensOf ts = .mark .closing :: r)
    (hclear : Clear line r) (hr : Follows .factor r) :
    ∃ us, tokensOf us = r ∧ (line.close R e ts).Done e us := by
  obtain ⟨stop, ts, rfl, hts⟩ := tokensOf_eq_cons ht
  refine ⟨ts, hts, ?_⟩
  unfold close
  dsimp only
  rw [if_pos rfl, done_advance]
  refine ⟨(hts ▸ hclear).faultBefore, ?_⟩
  cases ts with
  | nil => simp
  | cons c ts =>
    have hcaret := (hr c.token (by rw [← hts]; rfl)).1
    dsimp only
    rw [if_neg hcaret, Outcome.done_done]
    exact ⟨rfl, rfl⟩

theorem done_close_power {e : Expr R} {ds : List Char} (hd : Literal.IsExponent ds)
    (ht : tokensOf ts = .mark .closing :: .mark .caret :: .number ds :: r)
    (hs : Scanned (tokensOf ts)) (hclear : Clear line r) :
    ∃ us, tokensOf us = r ∧ (line.close R e ts).Done (.pow e (Literal.natural ds)) us := by
  obtain ⟨stop, ts₁, rfl, hts₁⟩ := tokensOf_eq_cons ht
  obtain ⟨stop', ts₂, rfl, hts₂⟩ := tokensOf_eq_cons hts₁
  obtain ⟨stop'', ts, rfl, hts⟩ := tokensOf_eq_cons hts₂
  refine ⟨ts, hts, ?_⟩
  have hexponent := (@done_exponent line _ ts (Literal.natural ds) hs.tail.tail).2
    ⟨ds, stop'', rfl, hd, rfl, (hts ▸ hclear).faultBefore⟩
  unfold close
  dsimp only
  rw [if_pos rfl, done_advance]
  refine ⟨rfl, ?_⟩
  dsimp only
  rw [if_pos rfl, done_advance, Outcome.done_widen, Outcome.done_map]
  exact ⟨rfl, _, hexponent, rfl⟩

/-! ## Expressions -/

/-- How a phrase is read up to `us`: a factor is, and a product or a sum is what the loop makes of
the expression that was read up to there. -/
def Completes (line : Line) (R : PolyRing) (l : Level) (ts : List Lexeme) (e : Expr R)
    (us : List Lexeme) : Prop :=
  match l with
  | .factor => (line.factor R ts).Done e us
  | .product => ∀ e' vs, (line.productRest R e us).Done e' vs → (line.product R ts).Done e' vs
  | .sum => ∀ e' vs, (line.sumRest R e us).Done e' vs → (line.sum R ts).Done e' vs

theorem productRest_of_head_ne {e : Expr R} (h : ∀ t ∈ (tokensOf ts).head?, t ≠ .mark .star) :
    (line.productRest R e ts).Done e ts := by
  rw [productRest.eq_def]
  cases ts with
  | nil => simp
  | cons l ts =>
    dsimp only
    rw [if_neg (h l.token rfl), Outcome.done_done]
    exact ⟨rfl, rfl⟩

theorem sumRest_of_head_ne {e : Expr R} (h : ∀ t ∈ (tokensOf ts).head?, ∀ s : Sign, t ≠ s.token) :
    (line.sumRest R e ts).Done e ts := by
  rw [sumRest.eq_def]
  cases ts with
  | nil => simp
  | cons l ts =>
    dsimp only
    split
    · rename_i s hsign
      exact absurd (signOf_eq_some.1 hsign) (h l.token rfl s)
    · rw [Outcome.done_done]
      exact ⟨rfl, rfl⟩

section
variable {l : Lexeme} {e e' : Expr R} {ms : Run R} {vs : List Lexeme}

theorem factor_of_run (hl : l.token.startsMonomial = true)
    (h : (line.runFrom R .plus (l :: ts)).Done ms us) :
    (line.factor R (l :: ts)).Done (.run ms) us := by
  obtain ⟨token, stop⟩ := l
  rw [factor.eq_def]
  cases token with
  | number ds => exact Outcome.done_map.2 ⟨ms, h, rfl⟩
  | letter v => exact Outcome.done_map.2 ⟨ms, h, rfl⟩
  | finish => cases hl
  | newline => cases hl
  | mark m => cases hl

theorem factor_of_minusRun (hl : l.token = .mark .minus) (hf : line.faultBefore? ts = none)
    (hstarts : ((tokensOf ts).headD .finish).startsMonomial = true)
    (h : (line.runFrom R .minus ts).Done ms us) :
    (line.factor R (l :: ts)).Done (.run ms) us := by
  have hends : ((tokensOf ts).headD .finish).endsLine = false := by
    generalize (tokensOf ts).headD .finish = next at hstarts ⊢
    cases next <;> first | rfl | cases hstarts
  rw [factor.eq_def]
  simp only [hl, peek_eq_ok.2 ⟨hf, rfl⟩, hends, hstarts]
  rw [if_neg (by decide), done_advance, if_pos trivial, Outcome.done_widen, Outcome.done_map]
  exact ⟨hf, ms, h, rfl⟩

theorem factor_of_neg (hl : l.token = .mark .minus) (hf : line.faultBefore? ts = none)
    (hends : ((tokensOf ts).headD .finish).endsLine = false)
    (hstarts : ((tokensOf ts).headD .finish).startsMonomial = false)
    (h : (line.factor R ts).Done e us) : (line.factor R (l :: ts)).Done (.neg e) us := by
  rw [factor.eq_def]
  simp only [hl, peek_eq_ok.2 ⟨hf, rfl⟩, hends, hstarts]
  rw [if_neg (by decide), done_advance, if_neg (by decide), Outcome.done_widen, Outcome.done_map]
  exact ⟨hf, e, h, rfl⟩

theorem factor_of_group (hl : l.token = .mark .opening) (hf : line.faultBefore? ts = none)
    (h : (line.sum R ts).Done e vs) (hclose : (line.close R e vs).Done e' us) :
    (line.factor R (l :: ts)).Done e' us := by
  rw [factor.eq_def]
  simp only [hl]
  rw [done_advance]
  simp only [Outcome.done_andThen, Outcome.done_widen]
  exact ⟨hf, e, vs, h.length_lt, h, hclose⟩

theorem productRest_cons (hl : l.token = .mark .star) (hf : line.faultBefore? ts = none)
    {e₀ : Expr R} (h : (line.factor R ts).Done e us)
    (h' : (line.productRest R (.mul e₀ e) us).Done e' vs) :
    (line.productRest R e₀ (l :: ts)).Done e' vs := by
  rw [productRest.eq_def]
  dsimp only
  rw [if_pos hl, done_advance]
  simp only [Outcome.done_andThen, Outcome.done_widen]
  exact ⟨hf, e, us, h.length_lt, h, h'⟩

theorem sumRest_cons {s : Sign} (hl : l.token = s.token) (hf : line.faultBefore? ts = none)
    {e₀ : Expr R} (h : (line.product R ts).Done e us)
    (h' : (line.sumRest R (s.join e₀ e) us).Done e' vs) :
    (line.sumRest R e₀ (l :: ts)).Done e' vs := by
  rw [sumRest.eq_def]
  simp only [signOf_eq_some.2 hl]
  rw [done_advance]
  simp only [Outcome.done_andThen, Outcome.done_widen]
  exact ⟨hf, e, us, h.length_lt, h, h'⟩

end

/-- A product is read when its last factor is followed by no star. -/
theorem Completes.done_product {e : Expr R} (h : Completes line R .product ts e us)
    (hr : Follows .sum (tokensOf us)) : (line.product R ts).Done e us :=
  h e us (productRest_of_head_ne hr.ne_star)

/-- A sum is read when its last product is followed by no sign. -/
theorem Completes.done_sum {e : Expr R} (h : Completes line R .sum ts e us)
    (hr : ∀ t ∈ (tokensOf us).head?, ∀ s : Sign, t ≠ s.token) : (line.sum R ts).Done e us :=
  h e us (sumRest_of_head_ne hr)

theorem closing_ne_sign :
    ∀ u ∈ (.mark .closing :: t : List Token).head?, ∀ s : Sign, u ≠ s.token :=
  forall_head_cons (Sign.token_ne_mark (by decide) (by decide))

theorem complete {l : Level} {e : Expr R} (h : Reads R l t e r) (ht : tokensOf ts = t)
    (hs : Scanned t) (hclear : Clear line r) (hr : Follows l r) :
    ∃ us, tokensOf us = r ∧ Completes line R l ts e us := by
  induction h generalizing ts with
  | @run m ms t u r hm h =>
    obtain ⟨us, hus, hdone⟩ := done_runFrom hm h ht hs hclear hr
    refine ⟨us, hus, ?_⟩
    obtain ⟨first, t', rfl, hstarts⟩ := hm.starts
    obtain ⟨stop, ts, rfl, -⟩ := tokensOf_eq_cons ht
    exact factor_of_run hstarts hdone
  | @minusRun m ms t u r hm h =>
    obtain ⟨stop, ts, rfl, hts⟩ := tokensOf_eq_cons ht
    obtain ⟨us, hus, hdone⟩ := done_runFrom hm h hts hs.tail hclear hr
    refine ⟨us, hus, ?_⟩
    have hf : line.faultBefore? ts = none :=
      (hts ▸ hclear.mono (h.suffix.trans hm.suffix)).faultBefore
    obtain ⟨first, t', rfl, hstarts⟩ := hm.starts
    exact factor_of_minusRun rfl hf (hts ▸ hstarts) hdone
  | @neg e t r hhead h ih =>
    obtain ⟨stop, ts, rfl, hts⟩ := tokensOf_eq_cons ht
    obtain ⟨us, hus, hdone⟩ := ih hts hs.tail hclear hr
    refine ⟨us, hus, ?_⟩
    have hf : line.faultBefore? ts = none := (hts ▸ hclear.mono h.suffix).faultBefore
    obtain ⟨first, t', rfl, hstarts⟩ := h.starts
    have hfirst : first.startsMonomial = false := hhead first rfl
    have hends : first.endsLine = false := by
      rcases hstarts with hstarts | rfl | rfl
      · rw [hfirst] at hstarts
        cases hstarts
      · rfl
      · rfl
    exact factor_of_neg rfl hf (hts ▸ hends) (hts ▸ hfirst) hdone
  | @group e t r h ih =>
    obtain ⟨stop, ts, rfl, hts⟩ := tokensOf_eq_cons ht
    have hclear' : Clear line (.mark .closing :: r) := hclear.mono (List.suffix_cons _ _)
    have hfollows : Follows .sum (.mark .closing :: r) :=
      follows_cons (by simp) (by simp) (by simp)
    obtain ⟨vs, hvs, hsum⟩ := ih hts hs.tail hclear' hfollows
    obtain ⟨us, hus, hclose⟩ := @done_close line R vs r e hvs hclear hr
    have hf : line.faultBefore? ts = none := (hts ▸ hclear'.mono h.suffix).faultBefore
    exact ⟨us, hus, factor_of_group rfl hf (hsum.done_sum (hvs ▸ closing_ne_sign)) hclose⟩
  | @power e ds t r hd h ih =>
    obtain ⟨stop, ts, rfl, hts⟩ := tokensOf_eq_cons ht
    have hclear' : Clear line (.mark .closing :: .mark .caret :: .number ds :: r) :=
      hclear.mono ⟨[_, _, _], rfl⟩
    have hfollows : Follows .sum (.mark .closing :: .mark .caret :: .number ds :: r) :=
      follows_cons (by simp) (by simp) (by simp)
    obtain ⟨vs, hvs, hsum⟩ := ih hts hs.tail hclear' hfollows
    have hs' : Scanned (tokensOf vs) := hvs ▸ hs.tail.mono h.suffix
    obtain ⟨us, hus, hclose⟩ := @done_close_power line R vs r e ds hd hvs hs' hclear
    have hf : line.faultBefore? ts = none := (hts ▸ hclear'.mono h.suffix).faultBefore
    exact ⟨us, hus, factor_of_group rfl hf (hsum.done_sum (hvs ▸ closing_ne_sign)) hclose⟩
  | @factor e t r h ih =>
    obtain ⟨us, hus, hfactor⟩ := ih ht hs hclear hr.factor
    refine ⟨us, hus, fun e' vs h' => ?_⟩
    change (line.factor R ts).Done e us at hfactor
    rw [product]
    simp only [Outcome.done_andThen, Outcome.done_widen]
    exact ⟨e, us, hfactor.length_lt, hfactor, h'⟩
  | @mul e e' t u r h h' ih ih' =>
    have hclear' : Clear line (.mark .star :: u) :=
      hclear.mono (h'.suffix.trans (List.suffix_cons _ _))
    obtain ⟨vs, hvs, hproduct⟩ :=
      ih ht hs hclear' (follows_cons (by simp) (by simp) (by simp))
    obtain ⟨stop, vs, rfl, hvs'⟩ := tokensOf_eq_cons hvs
    obtain ⟨us, hus, hfactor⟩ := ih' hvs' (hs.mono h.suffix).tail hclear hr.factor
    have hf : line.faultBefore? vs = none := (hvs' ▸ hclear.mono h'.suffix).faultBefore
    exact ⟨us, hus, fun e₂ ws h₂ => hproduct e₂ ws (productRest_cons rfl hf hfactor h₂)⟩
  | @product e t r h ih =>
    obtain ⟨us, hus, hproduct⟩ := ih ht hs hclear hr.product
    refine ⟨us, hus, fun e' vs h' => ?_⟩
    have hdone : (line.product R ts).Done e us := hproduct.done_product (hus ▸ hr)
    rw [sum]
    simp only [Outcome.done_andThen, Outcome.done_widen]
    exact ⟨e, us, hdone.length_lt, hdone, h'⟩
  | @join s e e' t u r h h' ih ih' =>
    have hclear' : Clear line (s.token :: u) :=
      hclear.mono (h'.suffix.trans (List.suffix_cons _ _))
    obtain ⟨vs, hvs, hsum⟩ := ih ht hs hclear' (follows_sign s)
    obtain ⟨stop, vs, rfl, hvs'⟩ := tokensOf_eq_cons hvs
    obtain ⟨us, hus, hproduct⟩ := ih' hvs' (hs.mono h.suffix).tail hclear hr.product
    have hf : line.faultBefore? vs = none := (hvs' ▸ hclear.mono h'.suffix).faultBefore
    have hdone : (line.product R vs).Done e' us := hproduct.done_product (hus ▸ hr)
    exact ⟨us, hus, fun e₂ ws h₂ => hsum e₂ ws (sumRest_cons rfl hf hdone h₂)⟩

/-- A reading of a sum whose rest starts with nothing that goes on is what the parser reads. -/
theorem done_of_reads {e : Expr R} (h : Reads R .sum (tokensOf ts) e r)
    (hs : Scanned (tokensOf ts)) (hclear : Clear line r) (hr : Follows .sum r)
    (hsign : ∀ t ∈ r.head?, ∀ s : Sign, t ≠ s.token) :
    ∃ us, tokensOf us = r ∧ (line.sum R ts).Done e us := by
  obtain ⟨us, hus, hsum⟩ := complete h rfl hs hclear hr
  exact ⟨us, hus, hsum.done_sum (hus ▸ hsign)⟩

end Line
end Multipoly
