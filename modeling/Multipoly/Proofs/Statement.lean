import Multipoly.Proofs.Completeness

/-!
# Reading a line

A line is read as a polynomial exactly when its statement has a reading, and the reading is unique.

Results:
* `Line.statement_eq_ok_iff`: what the statement of a line is;
* `Phrase.Whole.unique`: a statement has one reading at most;
* `Poly.read_eq_ok_iff`: the polynomial of a line is the value of the reading of its statement.
-/
namespace Multipoly
open Phrase

/-! ## One reading -/

theorem Outcome.Done.unique {α : Type} {n : Nat} {o : Outcome α n} {a b : α}
    {us vs : List Lexeme} (h : o.Done a us) (h' : o.Done b vs) : a = b := by
  obtain ⟨_, rfl⟩ := h
  exact (Outcome.done_done.1 h').1

/-- No reading has no tokens. -/
theorem Phrase.Reads.ne_nil {R : PolyRing} {l : Level} {e : Expr R} {rest : List Token} :
    ¬ Reads R l [] e rest := by
  intro h
  obtain ⟨_, _, heq, -⟩ := h.starts
  cases heq

/-- The parser decides the reading of a statement, so there is one at most. -/
theorem Phrase.Whole.unique {R : PolyRing} {ts : List Token} {e e' : Expr R}
    (hs : Line.Scanned ts) (h : Whole R ts e) (h' : Whole R ts e') : e = e' := by
  cases h with
  | blank =>
    cases h' with
    | blank => rfl
    | sum h' => exact absurd h' Reads.ne_nil
  | sum h =>
    cases h' with
    | blank => exact absurd h Reads.ne_nil
    | sum h' =>
      -- Any line with these tokens and without a fault does.
      have htokens : Line.tokensOf (ts.map fun t => (⟨t, 0⟩ : Lexeme)) = ts := by
        rw [Line.tokensOf, List.map_map]
        exact List.map_id' ts
      have hread : ∀ {e : Expr R}, Reads R .sum ts e [] → ∃ us, Line.tokensOf us = [] ∧
          (Line.sum ⟨[], [], none⟩ R (ts.map fun t => (⟨t, 0⟩ : Lexeme))).Done e us := by
        intro e h
        refine Line.done_of_reads ?_ ?_ (.inl rfl) (by simp [Follows]) (by simp)
        · rw [htokens]
          exact h
        · rw [htokens]
          exact hs
      obtain ⟨_, -, hdone⟩ := hread h
      obtain ⟨_, -, hdone'⟩ := hread h'
      exact hdone.unique hdone'

namespace Line
variable {line : Line} {R : PolyRing} {ts us : List Lexeme} {body : List Token}

/-! ## Statements -/

/-- A statement goes from the first token that is no line break up to the next line break, or up to
the end of the text if all of it could be scanned. -/
theorem statement_eq_ok_iff :
    line.statement = .ok body ↔
      .newline ∉ body ∧ ∃ rest, (tokensOf line.lexemes).dropWhile (· = .newline) = body ++ rest ∧
        (rest = [] ∧ line.fault = none ∨ ∃ after, rest = .newline :: after) := by
  unfold statement
  generalize (tokensOf line.lexemes).dropWhile (· = .newline) = all
  dsimp only
  constructor
  · intro h
    have hsplit := List.takeWhile_append_dropWhile (p := (· ≠ Token.newline)) (l := all)
    have hbody : .newline ∉ all.takeWhile (· ≠ Token.newline) := by
      intro hmem
      simpa using List.mem_takeWhile_imp hmem
    split at h
    · rename_i hlt
      cases h
      refine ⟨hbody, _, hsplit.symm, .inr ?_⟩
      cases hrest : all.dropWhile (· ≠ Token.newline) with
      | nil =>
        rw [hrest, List.append_nil] at hsplit
        rw [hsplit] at hlt
        omega
      | cons t after =>
        have hhead := List.head?_dropWhile_not (· ≠ Token.newline) all
        rw [hrest] at hhead
        have ht : t = .newline := by simpa using hhead
        exact ⟨after, by rw [ht]⟩
    · rename_i hlt
      split at h
      · cases h
      · rename_i hfault
        cases h
        have hlength := congrArg List.length hsplit
        rw [List.length_append] at hlength
        have hnil : all.dropWhile (· ≠ Token.newline) = [] :=
          List.eq_nil_of_length_eq_zero (by omega)
        exact ⟨hbody, [], by rw [← hnil, hsplit], .inl ⟨rfl, hfault⟩⟩
  · intro hsplit
    obtain ⟨hbody, rest, rfl, hrest⟩ := hsplit
    have hall : ∀ t ∈ body, decide (t ≠ .newline) = true := by
      intro t ht
      refine decide_eq_true ?_
      intro heq
      subst heq
      exact hbody ht
    rw [List.takeWhile_append_of_pos hall]
    rcases hrest with ⟨rfl, hfault⟩ | ⟨after, rfl⟩
    · simp [hfault]
    · simp

theorem scanned_statement {symbols text : List Char}
    (h : (scan symbols text).statement = .ok body) : Scanned body := by
  obtain ⟨-, rest, hsplit, -⟩ := statement_eq_ok_iff.1 h
  have hall := (scanned_lexemes symbols text).mono (List.dropWhile_suffix (· = Token.newline))
  rw [hsplit] at hall
  exact ⟨fun ds hds => hall.1 ds (List.mem_append_left _ hds),
    fun hf => hall.2 (List.mem_append_left _ hf)⟩

/-! ## The parts of a line -/

theorem start_eq_ok : line.start = .ok ts ↔ line.faultBefore? line.lexemes = none ∧
    ts = line.lexemes := by
  unfold start
  split
  · rename_i e he
    simp [he]
  · rename_i hnone
    simp only [Except.ok.injEq, hnone, true_and]
    exact eq_comm

theorem done_expectEnd {u : Unit} :
    (line.expectEnd ts).Done u us ↔ (current ts).endsLine = true ∧ us = ts := by
  unfold expectEnd
  by_cases hends : (current ts).endsLine = true
  · rw [if_pos hends, Outcome.done_done]
    simp only [hends, true_and]
    exact eq_comm
  · simp [hends]

theorem tokens_of_skipNewlines {u : Unit} (hf : line.faultBefore? ts = none)
    (h : (line.skipNewlines ts).Done u us) :
    line.faultBefore? us = none ∧ tokensOf us = (tokensOf ts).dropWhile (· = .newline) := by
  induction ts with
  | nil =>
    rw [skipNewlines.eq_def, Outcome.done_done] at h
    obtain ⟨-, rfl⟩ := h
    exact ⟨hf, rfl⟩
  | cons l ts ih =>
    rw [skipNewlines.eq_def] at h
    dsimp only at h
    by_cases hl : l.token = .newline
    · rw [if_pos hl, done_advance, Outcome.done_widen] at h
      obtain ⟨hf, h⟩ := h
      rw [tokensOf_cons, List.dropWhile_cons_of_pos (by simpa using hl)]
      exact ih hf h
    · rw [if_neg hl, Outcome.done_done] at h
      obtain ⟨-, rfl⟩ := h
      rw [tokensOf_cons, List.dropWhile_cons_of_neg (by simpa using hl)]
      exact ⟨hf, rfl⟩

theorem done_skipNewlines
    (hf : (tokensOf ts).dropWhile (· = .newline) = [] → line.fault = none) :
    ∃ us, (line.skipNewlines ts).Done () us := by
  induction ts with
  | nil =>
    refine ⟨[], ?_⟩
    rw [skipNewlines.eq_def, Outcome.done_done]
    exact ⟨rfl, rfl⟩
  | cons l ts ih =>
    rw [skipNewlines.eq_def]
    dsimp only
    by_cases hl : l.token = .newline
    · rw [tokensOf_cons, List.dropWhile_cons_of_pos (by simpa using hl)] at hf
      obtain ⟨us, hus⟩ := ih hf
      refine ⟨us, ?_⟩
      rw [if_pos hl, done_advance, Outcome.done_widen, faultBefore_eq_none]
      exact ⟨fun hnil => hf (by rw [hnil]; rfl), hus⟩
    · refine ⟨l :: ts, ?_⟩
      rw [if_neg hl, Outcome.done_done]
      exact ⟨rfl, rfl⟩

/-! ## Whole lines -/

theorem whole_of_done {e : Expr R} (hs : Scanned (tokensOf line.lexemes))
    (hf : line.faultBefore? line.lexemes = none)
    (h : (line.whole R line.lexemes).Done e us) :
    ∃ body, line.statement = .ok body ∧ Whole R body e := by
  unfold whole at h
  rw [Outcome.done_andThen] at h
  obtain ⟨u, ts, lt, hskip, h⟩ := h
  obtain ⟨hf, htokens⟩ := tokens_of_skipNewlines hf hskip
  cases ts with
  | nil =>
    rw [Outcome.done_done] at h
    obtain ⟨rfl, rfl⟩ := h
    refine ⟨[], statement_eq_ok_iff.2 ⟨by simp, [], htokens.symm, .inl ⟨rfl, ?_⟩⟩, .blank⟩
    exact faultBefore_eq_none.1 hf rfl
  | cons l ts =>
    simp only [Outcome.done_andThen, Outcome.done_widen, Outcome.done_map] at h
    obtain ⟨e₁, vs, lt', hsum, _, hend, rfl⟩ := h
    obtain ⟨hends, rfl⟩ := done_expectEnd.1 hend
    have hs' : Scanned (tokensOf (l :: ts)) := hs.mono (htokens ▸ List.dropWhile_suffix _)
    obtain ⟨hf, hreads⟩ := @reads_of_done line R (l :: ts) us .sum e₁ hs' hsum
    obtain ⟨body, hbody, hnewline, -, hmove⟩ := hreads.taken
    refine ⟨body, statement_eq_ok_iff.2 ⟨hnewline, _, htokens.symm.trans hbody, ?_⟩, .sum ?_⟩
    · cases us with
      | nil => exact .inl ⟨rfl, faultBefore_eq_none.1 hf rfl⟩
      | cons v us =>
        refine .inr ⟨tokensOf us, ?_⟩
        have hfinish : v.token ≠ .finish := by
          intro hv
          exact (hs'.mono hreads.suffix).2 (by rw [tokensOf_cons, hv]; exact List.mem_cons_self)
        rw [current_eq] at hends
        rw [tokensOf_cons] at hends ⊢
        generalize v.token = t at hends hfinish
        cases t with
        | newline => rfl
        | finish => exact absurd rfl hfinish
        | number _ => cases hends
        | letter _ => cases hends
        | mark _ => cases hends
    · have h := hmove [] fun hc => absurd hc not_continuesRun_nil
      rwa [List.append_nil] at h

/-- What stands behind a statement: nothing, if all of the line could be scanned, or a line
break. -/
theorem exists_rest (hbody : line.statement = .ok body) :
    ∃ rest, (tokensOf line.lexemes).dropWhile (· = .newline) = body ++ rest ∧
      (∀ t ∈ rest.head?, t = .newline) ∧ (rest = [] → line.fault = none) ∧ Clear line rest := by
  obtain ⟨-, rest, hsplit, hrest⟩ := statement_eq_ok_iff.1 hbody
  refine ⟨rest, hsplit, ?_⟩
  rcases hrest with ⟨rfl, hfault⟩ | ⟨after, rfl⟩
  · exact ⟨by simp, fun _ => hfault, .inl hfault⟩
  · refine ⟨by simp, by simp, .inr ⟨.newline, List.mem_cons_self, fun s => ?_⟩⟩
    cases s <;> simp [Sign.token]

/-- A sum is read up to the end of its statement. -/
theorem done_sum_expectEnd {e : Expr R} {rest : List Token} (hs : Scanned (tokensOf ts))
    (htokens : tokensOf ts = body ++ rest) (hhead : ∀ t ∈ rest.head?, t = .newline)
    (hclear : Clear line rest) (h : Reads R .sum body e []) :
    ∃ us, (line.sum R ts).Done e us ∧ (line.expectEnd us).Done () us := by
  have hcontinues : ContinuesRun rest → ContinuesRun [] := by
    intro hrun
    obtain ⟨s, t, after, rfl, -⟩ := hrun
    have hs := hhead s.token rfl
    cases s <;> cases hs
  obtain ⟨cs, heq, -, -, hmove⟩ := h.taken
  rw [List.append_nil] at heq
  subst heq
  have hreads : Reads R .sum (tokensOf ts) e rest := htokens ▸ hmove rest hcontinues
  obtain ⟨us, hus, hsum⟩ := done_of_reads hreads hs hclear
    (fun t ht => by rw [hhead t ht]; simp)
    (fun t ht s => by rw [hhead t ht]; cases s <;> simp [Sign.token])
  refine ⟨us, hsum, done_expectEnd.2 ⟨?_, rfl⟩⟩
  rw [current_eq, hus]
  cases rest with
  | nil => rfl
  | cons t after =>
    rw [hhead t rfl]
    rfl

theorem done_whole {e : Expr R} (hs : Scanned (tokensOf line.lexemes))
    (hbody : line.statement = .ok body) (h : Whole R body e) :
    line.faultBefore? line.lexemes = none ∧ ∃ us, (line.whole R line.lexemes).Done e us := by
  obtain ⟨rest, hsplit, hhead, hfault, hclear⟩ := exists_rest hbody
  have hfault' : body ++ rest = [] → line.fault = none := fun hnil =>
    hfault (List.append_eq_nil_iff.1 hnil).2
  have hf : line.faultBefore? line.lexemes = none := by
    rw [faultBefore_eq_none]
    intro hnil
    rw [hnil] at hsplit
    exact hfault' hsplit.symm
  refine ⟨hf, ?_⟩
  obtain ⟨ts, hskip⟩ := @done_skipNewlines line line.lexemes (hsplit ▸ hfault')
  obtain ⟨-, htokens⟩ := tokens_of_skipNewlines hf hskip
  rw [hsplit] at htokens
  unfold whole
  simp only [Outcome.done_andThen]
  cases h with
  | blank =>
    -- Line breaks were skipped, so the statement cannot end with one at once.
    have hnil : rest = [] := by
      have hskipped := List.head?_dropWhile_not (· = Token.newline) (tokensOf line.lexemes)
      rw [hsplit, List.nil_append] at hskipped
      cases rest with
      | nil => rfl
      | cons t after => simp [hhead t rfl] at hskipped
    subst hnil
    obtain rfl := tokensOf_eq_nil.1 htokens
    exact ⟨[], (), [], hskip.length_lt, hskip, Outcome.done_done.2 ⟨rfl, rfl⟩⟩
  | sum h =>
    have hs' : Scanned (tokensOf ts) := hs.mono (htokens ▸ hsplit ▸ List.dropWhile_suffix _)
    obtain ⟨us, hsum, hend⟩ := done_sum_expectEnd hs' htokens hhead hclear h
    cases ts with
    | nil =>
      obtain ⟨rfl, -⟩ := List.append_eq_nil_iff.1 htokens.symm
      exact absurd h Reads.ne_nil
    | cons l ts =>
      refine ⟨us, (), _, hskip.length_lt, hskip, ?_⟩
      simp only [Outcome.done_andThen, Outcome.done_widen, Outcome.done_map]
      exact ⟨e, us, hsum.length_lt, hsum, (), hend, rfl⟩

/-- A mark that goes on nothing is rejected after a complete expression. -/
theorem rejected_of_trailing {e : Expr R} {k : Mark} {after : List Token}
    (hs : Scanned (tokensOf ts)) (hsign : ∀ s : Sign, .mark k ≠ s.token)
    (hstar : k ≠ .star) (hcaret : k ≠ .caret)
    (h : Reads R .sum (tokensOf ts) e (.mark k :: after)) :
    ∃ r, (line.whole R ts).toExcept = .error (.rejected r) ∧ r.cause = .trailing (.mark k) := by
  cases ts with
  | nil => exact absurd h Reads.ne_nil
  | cons l ts =>
    have hnewline : l.token ≠ .newline := by
      obtain ⟨cs, heq, hcs, hne, -⟩ := h.taken
      obtain ⟨c, cs, rfl⟩ := List.exists_cons_of_ne_nil hne
      rw [tokensOf_cons, List.cons_append, List.cons.injEq] at heq
      rw [heq.1]
      intro heq
      subst heq
      exact hcs List.mem_cons_self
    have hskip : line.skipNewlines (l :: ts) = .done () (l :: ts) (Nat.lt_succ_self _) := by
      rw [skipNewlines.eq_def]
      dsimp only
      rw [if_neg hnewline]
    obtain ⟨us, hus, lt, hsum⟩ := @done_of_reads line R (l :: ts) _ e h hs
      (.inr ⟨.mark k, List.mem_cons_self, hsign⟩)
      (follows_cons (by simpa using hcaret) (by simp) (by simpa using hstar))
      (forall_head_cons hsign)
    have hcurrent : current us = .mark k := by rw [current_eq, hus]; rfl
    have hend : line.expectEnd us = line.reject (.trailing (.mark k)) us := by
      unfold expectEnd
      rw [hcurrent]
      exact if_neg (by simp [Token.endsLine])
    unfold whole
    simp only [hskip, Outcome.andThen, hsum, hend]
    exact ⟨_, rfl, rfl⟩

end Line

/-- A line is read as a polynomial exactly when its statement has a reading, and then as the value
of the reading. -/
theorem Poly.read_eq_ok_iff {R : PolyRing} {text : List Char} {p : Poly R} :
    Poly.read R text = .ok p ↔ ∃ ts e, (Line.scan alphabet text).statement = .ok ts ∧
      Whole R ts e ∧ e.value = p := by
  have hs := Line.scanned_lexemes alphabet text
  unfold Poly.read
  generalize Line.scan alphabet text = line at hs ⊢
  dsimp only
  constructor
  · intro h
    cases hstart : line.start with
    | error e => rw [hstart] at h; cases h
    | ok ts =>
      obtain ⟨hf, rfl⟩ := Line.start_eq_ok.1 hstart
      cases hwhole : (line.whole R line.lexemes).toExcept with
      | error e => rw [hstart] at h; simp [bind, Except.bind, hwhole] at h
      | ok e =>
        rw [hstart] at h
        simp only [bind, Except.bind, hwhole, pure, Except.pure, Except.ok.injEq] at h
        obtain ⟨us, hdone⟩ := Outcome.toExcept_eq_ok_iff.1 hwhole
        obtain ⟨body, hbody, he⟩ := Line.whole_of_done hs hf hdone
        exact ⟨body, e, hbody, he, h⟩
  · intro hread
    obtain ⟨body, e, hbody, he, rfl⟩ := hread
    obtain ⟨hf, us, hdone⟩ := Line.done_whole hs hbody he
    have hwhole := Outcome.toExcept_eq_ok_iff.2 ⟨us, hdone⟩
    rw [Line.start_eq_ok.2 ⟨hf, rfl⟩]
    simp only [bind, Except.bind, hwhole, pure, Except.pure]

end Multipoly
