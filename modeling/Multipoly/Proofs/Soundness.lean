import Multipoly.Proofs.Outcome
import Multipoly.Proofs.Reading
import Multipoly.Proofs.WellFormed

/-!
# Soundness of the parser

Whatever the recursive descent reads is a reading of the tokens it took. One lemma a production says
so under the assumption that the productions it calls do; the assumptions are discharged at the end,
by induction on the number of tokens.

Results:
* `Phrase.setAll_noPowers`: recording powers one after the other keeps the last one of each slot;
* `Line.reads_of_unsigned`, `Line.reads_of_runFrom`: monomials and runs;
* `Line.phrase_induction`: what each production has when those it calls do, all of them have;
* `Line.reads_of_done`: factors, products and sums.
-/
namespace Multipoly
open Phrase

/-! ## Powers -/

namespace Phrase

/-- Records powers one after the other. -/
def setAll (u : Powers) (fs : List (Nat × Nat)) : Powers := fs.foldl (fun u f => u.set f.1 f.2) u

@[simp] theorem setAll_nil (u : Powers) : setAll u [] = u := rfl

@[simp] theorem setAll_cons (u : Powers) (f : Nat × Nat) (fs : List (Nat × Nat)) :
    setAll u (f :: fs) = setAll (u.set f.1 f.2) fs := rfl

theorem length_setAll (u : Powers) (fs : List (Nat × Nat)) :
    (setAll u fs).length = u.length := by
  induction fs generalizing u with
  | nil => rfl
  | cons f fs ih => rw [setAll_cons, ih, List.length_set]

/-- The power of a slot is the last one recorded for it. -/
theorem getD_setAll (fs : List (Nat × Nat)) {u : Powers} {i : Nat} (hi : i < u.length) :
    (setAll u fs).getD i 0 = (fs.reverse.lookup i).getD (u.getD i 0) := by
  induction fs generalizing u with
  | nil => rfl
  | cons f fs ih =>
    obtain ⟨slot, e⟩ := f
    have hset : i < (u.set slot e).length := by rwa [List.length_set]
    rw [setAll_cons, ih hset, List.reverse_cons, List.lookup_append]
    cases fs.reverse.lookup i with
    | some n => rfl
    | none =>
      by_cases h : i = slot
      · subst h
        simp [hi]
      · have hne : (i == slot) = false := beq_false_of_ne h
        simp [List.lookup_cons, hne, List.getElem?_set_ne (Ne.symm h)]

/-- Recording powers one after the other leaves the last one of each slot. -/
theorem setAll_noPowers (R : PolyRing) (fs : List (Nat × Nat)) :
    setAll R.noPowers fs = powersOf R fs := by
  have hlength : (setAll R.noPowers fs).length = R.arity := by
    rw [length_setAll, Monomial.length_noPowers]
  refine List.ext_getElem (by rw [hlength, powersOf]; simp) fun i hi hi' => ?_
  have hu : i < R.noPowers.length := by rwa [length_setAll] at hi
  have hzero : R.noPowers.getD i 0 = 0 := by
    rw [Monomial.length_noPowers] at hu
    simp [PolyRing.noPowers, hu]
  have h := getD_setAll fs hu
  rw [hzero, List.getD_eq_getElem?_getD, List.getElem?_eq_getElem hi, Option.getD_some] at h
  rw [h]
  simp [powersOf, lastPower]

end Phrase

namespace Line
variable {line : Line} {R : PolyRing} {ts rest : List Lexeme}

/-! ## What the parser reads -/

theorem done_exponent {n : Nat} (hs : Scanned (tokensOf ts)) :
    (line.exponent ts).Done n rest ↔
      ∃ ds stop, ts = ⟨.number ds, stop⟩ :: rest ∧ Literal.IsExponent ds ∧ n = Literal.natural ds ∧
        line.faultBefore? rest = none := by
  cases ts with
  | nil => simp [exponent]
  | cons l ts =>
    obtain ⟨token, stop⟩ := l
    cases token with
    | number ds =>
      have hnum : IsNumeral ds := hs.1 ds List.mem_cons_self
      unfold exponent
      simp only
      by_cases hpoint : '.' ∈ ds
      · rw [if_pos hpoint]
        simp only [done_reject, List.cons.injEq, Lexeme.mk.injEq, Token.number.injEq, false_iff]
        intro hexponent
        obtain ⟨ds', stop', ⟨⟨rfl, -⟩, -⟩, he, -⟩ := hexponent
        exact he.1 hpoint
      · rw [if_neg hpoint, done_advance, Literal.readInt_of_digits (hnum.allDigits hpoint)]
        constructor
        · intro hscan
          obtain ⟨hf, h⟩ := hscan
          split at h
          · rename_i k hk
            split at hk
            · rename_i hlen
              cases hk
              simp only [Outcome.done_done, Int.toNat_natCast] at h
              obtain ⟨rfl, rfl⟩ := h
              exact ⟨ds, stop, rfl, ⟨hpoint, hlen⟩, rfl, hf⟩
            · cases hk
          · exact absurd h Outcome.done_failed
        · intro hexponent
          obtain ⟨ds', stop', heq, he, rfl, hf⟩ := hexponent
          simp only [List.cons.injEq, Lexeme.mk.injEq, Token.number.injEq] at heq
          obtain ⟨⟨rfl, rfl⟩, rfl⟩ := heq
          refine ⟨hf, ?_⟩
          rw [if_pos he.2]
          simp
    | finish => simp [exponent]
    | newline => simp [exponent]
    | letter v => simp [exponent]
    | mark m => simp [exponent]

/-- A letter that is read is recorded with its power. -/
theorem letters_of_power {u u' : Powers} {v : Char} {l : Lexeme}
    (hs : Scanned (.letter v :: tokensOf ts)) (h : (line.power R u v l ts).Done u' rest) :
    line.faultBefore? rest = none ∧ ∃ f : Nat × Nat, u' = u.set f.1 f.2 ∧
      ∀ fs us, Letters R (tokensOf rest) fs us →
        Letters R (.letter v :: tokensOf ts) (f :: fs) us := by
  unfold power at h
  split at h
  · exact absurd h done_reject
  · rename_i slot hslot
    rw [done_advance] at h
    obtain ⟨hf, h⟩ := h
    cases ts with
    | nil =>
      simp only [Outcome.done_done] at h
      obtain ⟨rfl, rfl⟩ := h
      exact ⟨hf, (slot, 1), rfl, fun _ _ hl => .plain hslot hl⟩
    | cons c ts =>
      dsimp only at h
      split at h
      · rename_i hcaret
        rw [done_advance, Outcome.done_widen, Outcome.done_map] at h
        obtain ⟨-, n, he, rfl⟩ := h
        obtain ⟨ds, stop, rfl, hds, rfl, hf⟩ := (done_exponent hs.tail.tail).1 he
        refine ⟨hf, (slot, Literal.natural ds), rfl, fun fs us hl => ?_⟩
        rw [tokensOf_cons, tokensOf_cons, hcaret]
        exact .raised hslot hds hl
      · rw [Outcome.done_done] at h
        obtain ⟨rfl, rfl⟩ := h
        exact ⟨hf, (slot, 1), rfl, fun _ _ hl => .plain hslot hl⟩

theorem letters_of_powers {u u' : Powers} (hs : Scanned (tokensOf ts))
    (hf : line.faultBefore? ts = none) (h : (line.powers R u ts).Done u' rest) :
    line.faultBefore? rest = none ∧
      ∃ fs, u' = setAll u fs ∧ Letters R (tokensOf ts) fs (tokensOf rest) := by
  induction hn : ts.length using Nat.strongRecOn generalizing ts u with
  | ind n ih =>
    rw [powers.eq_def] at h
    split at h
    · rw [Outcome.done_done] at h
      obtain ⟨rfl, rfl⟩ := h
      exact ⟨hf, [], rfl, .nil _⟩
    · rename_i l ts
      split at h
      · rename_i v hv
        rw [tokensOf_cons, hv] at hs ⊢
        simp only [Outcome.done_andThen, Outcome.done_widen] at h
        obtain ⟨u₁, us, lt, hpower, h⟩ := h
        obtain ⟨hf, f, rfl, hl⟩ := letters_of_power hs hpower
        have hsuffix := (hl [] _ (.nil _)).suffix
        obtain ⟨hf, fs, rfl, hfs⟩ :=
          ih us.length (by rw [← hn]; exact lt) (hs.mono hsuffix) hf h rfl
        exact ⟨hf, f :: fs, rfl, hl fs _ hfs⟩
      · rw [Outcome.done_done] at h
        obtain ⟨rfl, rfl⟩ := h
        exact ⟨hf, [], rfl, .nil _⟩

theorem reads_of_unsigned {m : Monomial R} (hs : Scanned (tokensOf ts))
    (h : (line.unsigned R ts).Done m rest) :
    line.faultBefore? rest = none ∧ Unsigned R (tokensOf ts) m (tokensOf rest) := by
  unfold unsigned at h
  split at h
  · exact absurd h done_reject
  · rename_i l ts
    split at h
    · rename_i ds hds
      rw [tokensOf_cons, hds] at hs ⊢
      split at h
      · exact absurd h done_reject
      · rename_i c hc
        rw [done_advance, Outcome.done_widen, Outcome.done_map] at h
        obtain ⟨hf, u, hu, rfl⟩ := h
        obtain ⟨haccepts, rfl⟩ :=
          (Literal.ofLiteral_eq_ok_iff (hs.1 ds List.mem_cons_self)).1 hc
        obtain ⟨hf, fs, rfl, hfs⟩ := letters_of_powers hs.tail hf hu
        rw [setAll_noPowers]
        exact ⟨hf, .number haccepts hfs⟩
    · rename_i v hv
      rw [tokensOf_cons, hv] at hs ⊢
      simp only [Outcome.done_andThen, Outcome.done_widen, Outcome.done_map] at h
      obtain ⟨u₁, us, lt, hpower, u, hu, rfl⟩ := h
      obtain ⟨hf, f, rfl, hl⟩ := letters_of_power hs hpower
      have hsuffix := (hl [] _ (.nil _)).suffix
      obtain ⟨hf, fs, rfl, hfs⟩ := letters_of_powers (hs.mono hsuffix) hf hu
      have hletters := hl fs _ hfs
      rw [← setAll_cons, setAll_noPowers]
      exact ⟨hf, .letters (List.cons_ne_nil _ _) hletters⟩
    · exact absurd h done_reject

theorem signOf_eq_some {t : Token} {s : Sign} : signOf? t = some s ↔ t = s.token := by
  cases s with
  | plus => exact ⟨fun h => by unfold signOf? at h; split at h <;> cases h; rfl, fun h => h ▸ rfl⟩
  | minus => exact ⟨fun h => by unfold signOf? at h; split at h <;> cases h; rfl, fun h => h ▸ rfl⟩

theorem peek_eq_ok {t : Token} :
    line.peek ts = .ok t ↔ line.faultBefore? ts = none ∧ t = (tokensOf ts).headD .finish := by
  unfold peek
  split
  · rename_i e he
    simp [he]
  · rename_i hnone
    simp only [Except.ok.injEq, hnone, true_and, current_eq]
    exact eq_comm

theorem reads_of_runRest {ms : Run R} (hs : Scanned (tokensOf ts))
    (hf : line.faultBefore? ts = none) (h : (line.runRest R ts).Done ms rest) :
    line.faultBefore? rest = none ∧ RunRest R (tokensOf ts) ms (tokensOf rest) := by
  induction hn : ts.length using Nat.strongRecOn generalizing ts ms with
  | ind n ih =>
    rw [runRest.eq_def] at h
    split at h
    · rw [Outcome.done_done] at h
      obtain ⟨rfl, rfl⟩ := h
      exact ⟨hf, .stop not_continuesRun_nil⟩
    · rename_i l ts
      split at h
      · rename_i hsign
        rw [Outcome.done_done] at h
        obtain ⟨rfl, rfl⟩ := h
        refine ⟨hf, .stop (not_continuesRun fun s hs => ?_)⟩
        rw [signOf_eq_some.2 hs] at hsign
        cases hsign
      · rename_i s hsign
        have htoken := signOf_eq_some.1 hsign
        split at h
        · exact absurd h Outcome.done_failed
        · rename_i next hpeek
          obtain ⟨-, hnext⟩ := peek_eq_ok.1 hpeek
          split at h
          · rw [done_advance] at h
            simp only [Outcome.done_andThen, Outcome.done_widen, Outcome.done_map] at h
            obtain ⟨-, m, us, lt, hm, ms, hms, rfl⟩ := h
            obtain ⟨hf, hm⟩ := reads_of_unsigned hs.tail hm
            have hlt : us.length < n := by
              rw [← hn, List.length_cons]
              omega
            obtain ⟨hf, hms⟩ := ih us.length hlt (hs.tail.mono hm.suffix) hf hms rfl
            rw [tokensOf_cons, htoken]
            exact ⟨hf, .next hm hms⟩
          · rename_i hstarts
            rw [Outcome.done_done] at h
            obtain ⟨rfl, rfl⟩ := h
            refine ⟨hf, .stop ?_⟩
            rw [tokensOf_cons, htoken, continuesRun_cons, ← hnext]
            exact hstarts

theorem reads_of_runFrom {s : Sign} {ms : Run R} (hs : Scanned (tokensOf ts))
    (h : (line.runFrom R s ts).Done ms rest) :
    line.faultBefore? rest = none ∧ ∃ m ms' us, ms = (s, m) :: ms' ∧
      Unsigned R (tokensOf ts) m us ∧ RunRest R us ms' (tokensOf rest) := by
  unfold runFrom at h
  simp only [Outcome.done_andThen, Outcome.done_widen, Outcome.done_map] at h
  obtain ⟨m, us, lt, hm, ms', hms, rfl⟩ := h
  obtain ⟨hf, hm⟩ := reads_of_unsigned hs hm
  obtain ⟨hf, hms⟩ := reads_of_runRest (hs.mono hm.suffix) hf hms
  exact ⟨hf, m, ms', _, rfl, hm, hms⟩

/-- The end of a group that is read, with or without an exponent. -/
theorem tokens_of_close {e e' : Expr R} (hs : Scanned (tokensOf ts))
    (h : (line.close R e ts).Done e' rest) :
    line.faultBefore? rest = none ∧
      ((tokensOf ts = .mark .closing :: tokensOf rest ∧ e' = e) ∨
        ∃ ds, Literal.IsExponent ds ∧ e' = .pow e (Literal.natural ds) ∧
          tokensOf ts = .mark .closing :: .mark .caret :: .number ds :: tokensOf rest) := by
  unfold close at h
  split at h
  · exact absurd h done_reject
  · rename_i l ts
    split at h
    · rename_i hclosing
      rw [done_advance] at h
      obtain ⟨hf, h⟩ := h
      cases ts with
      | nil =>
        rw [Outcome.done_done] at h
        obtain ⟨rfl, rfl⟩ := h
        exact ⟨hf, .inl ⟨by rw [tokensOf_cons, hclosing], rfl⟩⟩
      | cons c ts =>
        dsimp only at h
        split at h
        · rename_i hcaret
          rw [done_advance, Outcome.done_widen, Outcome.done_map] at h
          obtain ⟨-, n, he, rfl⟩ := h
          obtain ⟨ds, stop, rfl, hds, rfl, hf⟩ := (done_exponent hs.tail.tail).1 he
          refine ⟨hf, .inr ⟨ds, hds, rfl, ?_⟩⟩
          simp only [tokensOf_cons, hclosing, hcaret]
        · rw [Outcome.done_done] at h
          obtain ⟨rfl, rfl⟩ := h
          exact ⟨hf, .inl ⟨by rw [tokensOf_cons, hclosing], rfl⟩⟩
    · exact absurd h done_reject

/-- The parser of each kind of phrase. -/
def phrase (line : Line) (R : PolyRing) : Level → (ts : List Lexeme) → Outcome (Expr R) ts.length
  | .factor => line.factor R
  | .product => line.product R
  | .sum => line.sum R

/-- What holds of the phrases at some tokens, whenever it holds of the phrases that their parsers
call: a factor calls factors and sums of fewer tokens, and products and sums call factors and
products of no more tokens. -/
theorem phrase_induction {P : Level → List Lexeme → Prop}
    (hfactor : ∀ ts, (∀ us : List Lexeme, us.length < ts.length → P .factor us ∧ P .sum us) →
      P .factor ts)
    (hproduct : ∀ ts, (∀ us : List Lexeme, us.length ≤ ts.length → P .factor us) → P .product ts)
    (hsum : ∀ ts, (∀ us : List Lexeme, us.length ≤ ts.length → P .product us) → P .sum ts)
    (l : Level) (ts : List Lexeme) : P l ts := by
  induction hn : ts.length using Nat.strongRecOn generalizing ts l with
  | ind n ih =>
    have hfactors : ∀ us : List Lexeme, us.length ≤ ts.length → P .factor us := by
      intro us hus
      refine hfactor us fun vs hvs => ?_
      have hlt : vs.length < n := by omega
      exact ⟨ih vs.length hlt .factor vs rfl, ih vs.length hlt .sum vs rfl⟩
    have hproducts : ∀ us : List Lexeme, us.length ≤ ts.length → P .product us :=
      fun us hus => hproduct us fun vs hvs => hfactors vs (Nat.le_trans hvs hus)
    cases l with
    | factor => exact hfactors ts (Nat.le_refl _)
    | product => exact hproducts ts (Nat.le_refl _)
    | sum => exact hsum ts hproducts

/-- Whatever the parser reads at these tokens as such a phrase is a reading of them. -/
def Sound (line : Line) (R : PolyRing) (l : Level) (ts : List Lexeme) : Prop :=
  Scanned (tokensOf ts) → ∀ e rest, (line.phrase R l ts).Done e rest →
    line.faultBefore? rest = none ∧ Reads R l (tokensOf ts) e (tokensOf rest)

theorem sound_factor
    (ih : ∀ us : List Lexeme, us.length < ts.length →
      Sound line R .factor us ∧ Sound line R .sum us) :
    Sound line R .factor ts := by
  intro hs e rest h
  change (line.factor R ts).Done e rest at h
  rw [factor.eq_def] at h
  split at h
  · exact absurd h done_reject
  · rename_i l ts
    have hlt : ts.length < (l :: ts).length := Nat.lt_succ_self _
    split at h
    · exact absurd h done_reject
    · exact absurd h done_reject
    · rw [Outcome.done_map] at h
      obtain ⟨ms, h, rfl⟩ := h
      obtain ⟨hf, m, ms, us, rfl, hm, hms⟩ := reads_of_runFrom hs h
      exact ⟨hf, .run hm hms⟩
    · rw [Outcome.done_map] at h
      obtain ⟨ms, h, rfl⟩ := h
      obtain ⟨hf, m, ms, us, rfl, hm, hms⟩ := reads_of_runFrom hs h
      exact ⟨hf, .run hm hms⟩
    · rename_i hopening
      rw [done_advance] at h
      simp only [Outcome.done_andThen, Outcome.done_widen] at h
      obtain ⟨-, e₁, us, lt, hsum, hclose⟩ := h
      obtain ⟨-, hsum⟩ := (ih ts hlt).2 hs.tail e₁ us hsum
      obtain ⟨hf, ⟨htokens, rfl⟩ | ⟨ds, hds, rfl, htokens⟩⟩ :=
        tokens_of_close (hs.tail.mono hsum.suffix) hclose
      · rw [tokensOf_cons, hopening]
        exact ⟨hf, .group (htokens ▸ hsum)⟩
      · rw [tokensOf_cons, hopening]
        exact ⟨hf, .power hds (htokens ▸ hsum)⟩
    · rename_i hminus
      rw [tokensOf_cons, hminus] at hs ⊢
      split at h
      · exact absurd h Outcome.done_failed
      · rename_i next hpeek
        obtain ⟨-, hnext⟩ := peek_eq_ok.1 hpeek
        split at h
        · exact absurd h done_reject
        · rw [done_advance] at h
          obtain ⟨-, h⟩ := h
          split at h
          · simp only [Outcome.done_widen, Outcome.done_map] at h
            obtain ⟨ms, h, rfl⟩ := h
            obtain ⟨hf, m, ms, us, rfl, hm, hms⟩ := reads_of_runFrom hs.tail h
            exact ⟨hf, .minusRun hm hms⟩
          · rename_i hstarts
            simp only [Outcome.done_widen, Outcome.done_map] at h
            obtain ⟨e₁, h, rfl⟩ := h
            obtain ⟨hf, he⟩ := (ih ts hlt).1 hs.tail e₁ rest h
            refine ⟨hf, .neg ?_ he⟩
            intro t ht
            rw [List.headD_eq_head?_getD, Option.mem_def.1 ht, Option.getD_some] at hnext
            rw [← hnext]
            exact Bool.not_eq_true _ ▸ hstarts
    · exact absurd h done_reject
    · exact absurd h done_reject
    · exact absurd h done_reject

theorem reads_of_productRest {n : Nat} {t₀ : List Token} {e₀ e : Expr R}
    (ih : ∀ us : List Lexeme, us.length < n → Sound line R .factor us) (hlen : ts.length ≤ n)
    (hs : Scanned (tokensOf ts)) (hf : line.faultBefore? ts = none)
    (h₀ : Reads R .product t₀ e₀ (tokensOf ts)) (h : (line.productRest R e₀ ts).Done e rest) :
    line.faultBefore? rest = none ∧ Reads R .product t₀ e (tokensOf rest) := by
  induction hn : ts.length using Nat.strongRecOn generalizing ts e₀ with
  | ind k ihk =>
    rw [productRest.eq_def] at h
    split at h
    · rw [Outcome.done_done] at h
      obtain ⟨rfl, rfl⟩ := h
      exact ⟨hf, h₀⟩
    · rename_i l ts
      rw [List.length_cons] at hlen hn
      split at h
      · rename_i hstar
        rw [done_advance] at h
        simp only [Outcome.done_andThen, Outcome.done_widen] at h
        obtain ⟨-, e₁, us, lt, hfactor, h⟩ := h
        obtain ⟨hf, hfactor⟩ := ih ts (by omega) hs.tail e₁ us hfactor
        rw [tokensOf_cons, hstar] at h₀
        exact ihk us.length (by omega) (by omega) (hs.tail.mono hfactor.suffix) hf
          (.mul h₀ hfactor) h rfl
      · rw [Outcome.done_done] at h
        obtain ⟨rfl, rfl⟩ := h
        exact ⟨hf, h₀⟩

theorem sound_product (ih : ∀ us : List Lexeme, us.length ≤ ts.length → Sound line R .factor us) :
    Sound line R .product ts := by
  intro hs e rest h
  change (line.product R ts).Done e rest at h
  rw [product] at h
  simp only [Outcome.done_andThen, Outcome.done_widen] at h
  obtain ⟨e₁, us, lt, hfactor, h⟩ := h
  obtain ⟨hf, hfactor⟩ := ih ts (Nat.le_refl _) hs e₁ us hfactor
  exact reads_of_productRest (fun us hus => ih us (Nat.le_of_lt hus)) (Nat.le_of_lt lt)
    (hs.mono hfactor.suffix) hf (.factor hfactor) h

theorem reads_of_sumRest {n : Nat} {t₀ : List Token} {e₀ e : Expr R}
    (ih : ∀ us : List Lexeme, us.length < n → Sound line R .product us) (hlen : ts.length ≤ n)
    (hs : Scanned (tokensOf ts)) (hf : line.faultBefore? ts = none)
    (h₀ : Reads R .sum t₀ e₀ (tokensOf ts)) (h : (line.sumRest R e₀ ts).Done e rest) :
    line.faultBefore? rest = none ∧ Reads R .sum t₀ e (tokensOf rest) := by
  induction hn : ts.length using Nat.strongRecOn generalizing ts e₀ with
  | ind k ihk =>
    rw [sumRest.eq_def] at h
    split at h
    · rw [Outcome.done_done] at h
      obtain ⟨rfl, rfl⟩ := h
      exact ⟨hf, h₀⟩
    · rename_i l ts
      rw [List.length_cons] at hlen hn
      split at h
      · rename_i s hsign
        rw [done_advance] at h
        simp only [Outcome.done_andThen, Outcome.done_widen] at h
        obtain ⟨-, e₁, us, lt, hproduct, h⟩ := h
        obtain ⟨hf, hproduct⟩ := ih ts (by omega) hs.tail e₁ us hproduct
        rw [tokensOf_cons, signOf_eq_some.1 hsign] at h₀
        exact ihk us.length (by omega) (by omega) (hs.tail.mono hproduct.suffix) hf
          (.join h₀ hproduct) h rfl
      · rw [Outcome.done_done] at h
        obtain ⟨rfl, rfl⟩ := h
        exact ⟨hf, h₀⟩

theorem sound_sum (ih : ∀ us : List Lexeme, us.length ≤ ts.length → Sound line R .product us) :
    Sound line R .sum ts := by
  intro hs e rest h
  change (line.sum R ts).Done e rest at h
  rw [sum] at h
  simp only [Outcome.done_andThen, Outcome.done_widen] at h
  obtain ⟨e₁, us, lt, hproduct, h⟩ := h
  obtain ⟨hf, hproduct⟩ := ih ts (Nat.le_refl _) hs e₁ us hproduct
  exact reads_of_sumRest (fun us hus => ih us (Nat.le_of_lt hus)) (Nat.le_of_lt lt)
    (hs.mono hproduct.suffix) hf (.product hproduct) h

/-- The parser is sound at all tokens. -/
theorem sound (line : Line) (R : PolyRing) : ∀ l ts, Sound line R l ts :=
  phrase_induction (fun _ => sound_factor) (fun _ => sound_product) (fun _ => sound_sum)

/-- Whatever the parser reads is a reading of the tokens it took, and no fault stands where it
stopped. -/
theorem reads_of_done {l : Level} {e : Expr R} (hs : Scanned (tokensOf ts))
    (h : (line.phrase R l ts).Done e rest) :
    line.faultBefore? rest = none ∧ Reads R l (tokensOf ts) e (tokensOf rest) :=
  sound line R l ts hs e rest h

end Line
end Multipoly
