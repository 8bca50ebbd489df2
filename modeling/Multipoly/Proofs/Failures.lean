import Multipoly.Proofs.Munching
import Multipoly.Proofs.ParsedTerms
import Multipoly.Proofs.SameRing

/-!
# How reading a line can fail

A line that is no polynomial is rejected at one of its tokens or at a character that starts none,
unless an exponent is too long to be converted; nothing else goes wrong. One lemma a production says
so for what its parser returns, and the arithmetic that is done on the way is never refused, because
all terms belong to the ring of the line and have one power for each of its variables.

Results:
* `Expr.compute_eq_ok`: the operations on what is read are granted, in every ring;
* `Line.contained`: factors, products and sums fail only in these ways;
* `Poly.read_failures`: what a line answers, and what its error names.
-/
namespace Multipoly

/-! ## Arithmetic -/

section
variable {R : PolyRing}

/-- Merges a signed monomial by operations that may be refused: its constructor and the update. -/
def Run.extend (p : Poly R) (f : Sign × Monomial R) : Except RingError (Poly R) := do
  let m ← Monomial.ofPowers f.2.coeff (f.2.powers.map Int.ofNat)
  (f.1.update m).on p

/-- The polynomial of an expression by operations that may be refused. -/
def Expr.compute : Expr R → Except RingError (Poly R)
  | run ms => ms.foldlM Run.extend Poly.empty
  | pow base n => do (← base.compute).powInt n
  | neg e => do return (← e.compute).neg
  | mul left right => do (← left.compute).times (.poly R (← right.compute))
  | add left right => do (← left.compute).plus (.poly R (← right.compute))
  | sub left right => do (← left.compute).minus (.poly R (← right.compute))

theorem Run.extend_eq_ok (p : Poly R) {f : Sign × Monomial R} (h : f.2.Fits) :
    extend p f = .ok (f.1.merge p f.2) := by
  rw [extend, h.ofPowers]
  exact Update.on_of_apply (f.1.update_apply f.2 p)

/-- Whatever the ring, computing an expression whose monomials fit is never refused. -/
theorem Expr.compute_eq_ok {e : Expr R} (h : e.Fits) : e.compute = .ok e.value := by
  induction e with
  | run ms => exact Poly.foldlM_of_ok (fun p f hf => Run.extend_eq_ok p (h f hf)) Poly.empty
  | pow base n ih =>
    rw [compute, ih h]
    rfl
  | neg e ih =>
    rw [compute, ih h]
    rfl
  | mul left right ihl ihr =>
    rw [compute, ihl h.1, ihr h.2]
    exact Poly.times_poly _ _
  | add left right ihl ihr =>
    rw [compute, ihl h.1, ihr h.2]
    exact Poly.plus_poly _ _
  | sub left right ihl ihr =>
    rw [compute, ihl h.1, ihr h.2]
    exact Poly.minus_poly _ _

end

/-! ## Failures -/

namespace Line
variable {line : Line} {R : PolyRing} {l : Lexeme} {ts us rest : List Lexeme} {e : ParseError}

/-- The errors of a line: a rejection at one of its tokens or at its end, the character at which the
scan stopped, or an integer literal after a caret that is too long. -/
inductive Failure (line : Line) : ParseError → Prop
  | rejected {ts : List Lexeme} (hts : ts <:+ line.lexemes) {c : Cause}
      (hc : ∀ reading e, c ≠ .unreadable reading e) :
      Failure line (.rejected ⟨c, line.cursor ts, line.text⟩)
  | unreadable (reading : Reading) {e : LexError} (he : line.fault = some e) :
      Failure line (line.unreadable reading e)
  | oversized {ds : List Char} (hds : [.mark .caret, .number ds] <:+: tokensOf line.lexemes)
      (hpoint : '.' ∉ ds) (hlong : digitLimit < ds.length) :
      Failure line (.oversized (.tooManyDigits ds.length))

/-- A phrase that is read leaves some last of the tokens `ts`; one that is not fails as lines do. -/
def Contained {α : Type} {n : Nat} (line : Line) (ts : List Lexeme) : Outcome α n → Prop
  | .done _ rest _ => rest <:+ ts
  | .failed e _ => Failure line e

section
variable {α β : Type} {m n : Nat}

theorem contained_map {o : Outcome α n} {f : α → β} :
    Contained line ts (o.map f) ↔ Contained line ts o := by
  cases o <;> rfl

theorem contained_widen {o : Outcome α m} {h : m ≤ n} :
    Contained line ts (o.widen h) ↔ Contained line ts o := by
  cases o <;> rfl

theorem contained_done {a : α} {lt : ts.length < n} : Contained line ts (.done a ts lt) :=
  List.suffix_rfl

theorem Contained.mono {o : Outcome α n} (h : Contained line us o) (hs : us <:+ ts) :
    Contained line ts o := by
  cases o with
  | done a rest lt => exact h.trans hs
  | failed e rest => exact h

theorem Contained.andThen {o : Outcome α m}
    {f : α → (rest : List Lexeme) → rest.length < m → Outcome β n} (h : Contained line ts o)
    (hf : ∀ a us lt, us <:+ ts → Contained line us (f a us lt)) :
    Contained line ts (o.andThen f) := by
  cases o with
  | done a us lt => exact (hf a us lt h).mono h
  | failed e rest => exact h

theorem fault_of_faultBefore {fault : LexError} (h : line.faultBefore? us = some fault) :
    line.fault = some fault := by
  unfold faultBefore? at h
  split at h
  · exact h
  · cases h

theorem contained_advance
    {f : Unit → (us : List Lexeme) → us.length < ts.length + 1 → Outcome α n}
    (hf : Contained line ts (f () ts (Nat.lt_succ_self _))) :
    Contained line (l :: ts) ((line.advance l ts).andThen f) := by
  unfold advance
  split
  · exact Failure.unreadable _ (fault_of_faultBefore (by assumption))
  · exact hf.mono (List.suffix_cons l ts)

theorem contained_of_peek (h : line.peek us = .error e) :
    Contained line ts (.failed e rest : Outcome α n) := by
  unfold peek at h
  split at h
  · cases h
    exact Failure.unreadable _ (fault_of_faultBefore (by assumption))
  · cases h

theorem contained_reject {c : Cause} (hts : ts <:+ line.lexemes)
    (hc : ∀ reading e, c ≠ .unreadable reading e) :
    Contained line ts (line.reject c ts : Outcome α n) := Failure.rejected hts hc

end

/-! ## Monomials -/

section
variable (hs : Scanned (tokensOf line.lexemes))
include hs

/-- An exponent after a caret. -/
theorem contained_exponent (hl : l.token = .mark .caret) (hts : l :: ts <:+ line.lexemes) :
    Contained line ts (line.exponent ts) := by
  have hts' := (List.suffix_cons l ts).trans hts
  unfold exponent
  cases ts with
  | nil => exact contained_reject hts' nofun
  | cons c ts =>
    obtain ⟨t, stop⟩ := c
    cases t with
    | number ds =>
      dsimp only
      by_cases hpoint : '.' ∈ ds
      · rw [if_pos hpoint]
        exact contained_reject hts' nofun
      · rw [if_neg hpoint]
        refine contained_advance ?_
        obtain ⟨cs, hcs⟩ := hts
        have htokens : tokensOf line.lexemes =
            tokensOf cs ++ .mark .caret :: .number ds :: tokensOf ts := by
          rw [← hcs, tokensOf_append, tokensOf_cons, tokensOf_cons, hl]
        have hnumeral : IsNumeral ds := hs.1 ds (by rw [htokens]; simp)
        rw [Literal.readInt_of_digits (hnumeral.allDigits hpoint)]
        by_cases hlong : ds.length ≤ digitLimit
        · rw [if_pos hlong]
          exact contained_done
        · rw [if_neg hlong]
          refine Failure.oversized ⟨tokensOf cs, tokensOf ts, ?_⟩ hpoint (Nat.lt_of_not_le hlong)
          rw [htokens, List.append_assoc]
          rfl
    | _ => exact contained_reject hts' nofun

theorem contained_power {u : Powers} {v : Char} (hts : l :: ts <:+ line.lexemes) :
    Contained line (l :: ts) (line.power R u v l ts) := by
  unfold power
  cases R.slot? v with
  | none => exact contained_reject hts nofun
  | some slot =>
    refine contained_advance ?_
    cases ts with
    | nil => exact contained_done
    | cons c ts =>
      dsimp only
      by_cases hcaret : c.token = .mark .caret
      · rw [if_pos hcaret]
        refine contained_advance ?_
        rw [contained_widen, contained_map]
        exact contained_exponent hs hcaret ((List.suffix_cons l _).trans hts)
      · rw [if_neg hcaret]
        exact contained_done

theorem contained_powers {u : Powers} (hts : ts <:+ line.lexemes) :
    Contained line ts (line.powers R u ts) := by
  obtain ⟨n, hn⟩ : ∃ n, ts.length = n := ⟨_, rfl⟩
  induction n using Nat.strongRecOn generalizing ts u with
  | ind n ih =>
    rw [powers.eq_def]
    cases ts with
    | nil => exact contained_done
    | cons l ts =>
      obtain ⟨t, stop⟩ := l
      cases t with
      | letter v =>
        refine (contained_power hs hts).andThen fun u us lt hus => ?_
        rw [contained_widen]
        rw [List.length_cons] at hn
        exact ih us.length (by omega) (hus.trans hts) rfl
      | _ => exact contained_done

theorem contained_unsigned (hts : ts <:+ line.lexemes) :
    Contained line ts (line.unsigned R ts) := by
  unfold unsigned
  cases ts with
  | nil => exact contained_reject hts nofun
  | cons l ts =>
    have hts' := (List.suffix_cons l ts).trans hts
    obtain ⟨t, stop⟩ := l
    cases t with
    | number ds =>
      dsimp only
      cases (Coefficient.ofLiteral ds : Except NumeralError R.Carrier) with
      | error e => exact contained_reject hts nofun
      | ok c =>
        refine contained_advance ?_
        rw [contained_widen, contained_map]
        exact contained_powers hs hts'
    | letter v =>
      refine (contained_power hs hts).andThen fun u us lt hus => ?_
      rw [contained_widen, contained_map]
      exact contained_powers hs (hus.trans hts)
    | _ => exact contained_reject hts nofun

/-! ## Runs -/

theorem contained_runRest (hts : ts <:+ line.lexemes) :
    Contained line ts (line.runRest R ts) := by
  obtain ⟨n, hn⟩ : ∃ n, ts.length = n := ⟨_, rfl⟩
  induction n using Nat.strongRecOn generalizing ts with
  | ind n ih =>
    rw [runRest.eq_def]
    cases ts with
    | nil => exact contained_done
    | cons l ts =>
      have hts' := (List.suffix_cons l ts).trans hts
      dsimp only
      cases signOf? l.token with
      | none => exact contained_done
      | some s =>
        dsimp only
        cases hpeek : line.peek ts with
        | error e => exact contained_of_peek hpeek
        | ok next =>
          dsimp only
          by_cases hstarts : next.startsMonomial = true
          · rw [if_pos hstarts]
            refine contained_advance ((contained_unsigned hs hts').andThen fun m us lt hus => ?_)
            rw [contained_widen, contained_map]
            rw [List.length_cons] at hn
            exact ih us.length (by omega) (hus.trans hts') rfl
          · rw [if_neg hstarts]
            exact contained_done

theorem contained_runFrom {s : Sign} (hts : ts <:+ line.lexemes) :
    Contained line ts (line.runFrom R s ts) := by
  unfold runFrom
  refine (contained_unsigned hs hts).andThen fun m us lt hus => ?_
  rw [contained_widen, contained_map]
  exact contained_runRest hs (hus.trans hts)

/-! ## Expressions -/

theorem contained_close {e : Expr R} (hts : ts <:+ line.lexemes) :
    Contained line ts (line.close R e ts) := by
  unfold close
  cases ts with
  | nil => exact contained_reject hts nofun
  | cons l ts =>
    have hts' := (List.suffix_cons l ts).trans hts
    dsimp only
    by_cases hclosing : l.token = .mark .closing
    · rw [if_pos hclosing]
      refine contained_advance ?_
      cases ts with
      | nil => exact contained_done
      | cons c ts =>
        dsimp only
        by_cases hcaret : c.token = .mark .caret
        · rw [if_pos hcaret]
          refine contained_advance ?_
          rw [contained_widen, contained_map]
          exact contained_exponent hs hcaret hts'
        · rw [if_neg hcaret]
          exact contained_done
    · rw [if_neg hclosing]
      exact contained_reject hts nofun

/-- The parser of the phrase is contained at these tokens. -/
def Contains (line : Line) (R : PolyRing) (l : Phrase.Level) (ts : List Lexeme) : Prop :=
  ts <:+ line.lexemes → Contained line ts (line.phrase R l ts)

theorem contains_factor
    (ih : ∀ us : List Lexeme, us.length < ts.length →
      Contains line R .factor us ∧ Contains line R .sum us) :
    Contains line R .factor ts := by
  intro hts
  change Contained line ts (line.factor R ts)
  rw [factor.eq_def]
  cases ts with
  | nil => exact contained_reject hts nofun
  | cons l ts =>
    have hlt : ts.length < (l :: ts).length := Nat.lt_succ_self _
    have hts' := (List.suffix_cons l ts).trans hts
    obtain ⟨t, stop⟩ := l
    cases t with
    | finish => exact contained_reject hts nofun
    | newline => exact contained_reject hts nofun
    | number ds => exact contained_map.2 (contained_runFrom hs hts)
    | letter v => exact contained_map.2 (contained_runFrom hs hts)
    | mark m =>
      cases m with
      | opening =>
        refine contained_advance (((ih ts hlt).2 hts').andThen fun e us lt hus => ?_)
        rw [contained_widen]
        exact contained_close hs (hus.trans hts')
      | minus =>
        dsimp only
        cases hpeek : line.peek ts with
        | error e => exact contained_of_peek hpeek
        | ok next =>
          dsimp only
          by_cases hends : next.endsLine = true
          · rw [if_pos hends]
            exact contained_reject hts nofun
          · rw [if_neg hends]
            refine contained_advance ?_
            by_cases hstarts : next.startsMonomial = true
            · rw [if_pos hstarts, contained_widen, contained_map]
              exact contained_runFrom hs hts'
            · rw [if_neg hstarts, contained_widen, contained_map]
              exact (ih ts hlt).1 hts'
      | _ => exact contained_reject hts nofun

omit hs in
theorem contained_productRest {n : Nat} {e : Expr R}
    (ih : ∀ us : List Lexeme, us.length < n → Contains line R .factor us) (hn : ts.length ≤ n)
    (hts : ts <:+ line.lexemes) : Contained line ts (line.productRest R e ts) := by
  obtain ⟨k, hk⟩ : ∃ k, ts.length = k := ⟨_, rfl⟩
  induction k using Nat.strongRecOn generalizing ts e with
  | ind k ihk =>
    rw [productRest.eq_def]
    cases ts with
    | nil => exact contained_done
    | cons l ts =>
      have hts' := (List.suffix_cons l ts).trans hts
      rw [List.length_cons] at hn hk
      dsimp only
      by_cases hstar : l.token = .mark .star
      · rw [if_pos hstar]
        refine contained_advance ((ih ts (by omega) hts').andThen fun e us lt hus => ?_)
        rw [contained_widen]
        exact ihk us.length (by omega) (by omega) (hus.trans hts') rfl
      · rw [if_neg hstar]
        exact contained_done

omit hs in
theorem contains_product
    (ih : ∀ us : List Lexeme, us.length ≤ ts.length → Contains line R .factor us) :
    Contains line R .product ts := by
  intro hts
  change Contained line ts (line.product R ts)
  rw [product]
  refine (ih ts (Nat.le_refl _) hts).andThen fun e us lt hus => ?_
  rw [contained_widen]
  exact contained_productRest (fun us hus => ih us (Nat.le_of_lt hus)) (Nat.le_of_lt lt)
    (hus.trans hts)

omit hs in
theorem contained_sumRest {n : Nat} {e : Expr R}
    (ih : ∀ us : List Lexeme, us.length < n → Contains line R .product us) (hn : ts.length ≤ n)
    (hts : ts <:+ line.lexemes) : Contained line ts (line.sumRest R e ts) := by
  obtain ⟨k, hk⟩ : ∃ k, ts.length = k := ⟨_, rfl⟩
  induction k using Nat.strongRecOn generalizing ts e with
  | ind k ihk =>
    rw [sumRest.eq_def]
    cases ts with
    | nil => exact contained_done
    | cons l ts =>
      have hts' := (List.suffix_cons l ts).trans hts
      rw [List.length_cons] at hn hk
      dsimp only
      cases signOf? l.token with
      | none => exact contained_done
      | some s =>
        refine contained_advance ((ih ts (by omega) hts').andThen fun e us lt hus => ?_)
        rw [contained_widen]
        exact ihk us.length (by omega) (by omega) (hus.trans hts') rfl

omit hs in
theorem contains_sum
    (ih : ∀ us : List Lexeme, us.length ≤ ts.length → Contains line R .product us) :
    Contains line R .sum ts := by
  intro hts
  change Contained line ts (line.sum R ts)
  rw [sum]
  refine (ih ts (Nat.le_refl _) hts).andThen fun e us lt hus => ?_
  rw [contained_widen]
  exact contained_sumRest (fun us hus => ih us (Nat.le_of_lt hus)) (Nat.le_of_lt lt)
    (hus.trans hts)

/-- Phrases of a line fail only as lines do. -/
theorem contained (R : PolyRing) : ∀ l ts, Contains line R l ts :=
  phrase_induction (fun _ => contains_factor hs) (fun _ => contains_product)
    (fun _ => contains_sum)

/-! ## Lines -/

omit hs in
theorem contained_skipNewlines : Contained line ts (line.skipNewlines ts) := by
  induction ts with
  | nil =>
    rw [skipNewlines.eq_def]
    exact contained_done
  | cons l ts ih =>
    rw [skipNewlines.eq_def]
    dsimp only
    by_cases hl : l.token = .newline
    · rw [if_pos hl]
      refine contained_advance ?_
      rw [contained_widen]
      exact ih
    · rw [if_neg hl]
      exact contained_done

omit hs in
theorem contained_expectEnd (hts : ts <:+ line.lexemes) :
    Contained line ts (line.expectEnd ts) := by
  unfold expectEnd
  by_cases hends : (current ts).endsLine = true
  · rw [if_pos hends]
    exact contained_done
  · rw [if_neg hends]
    exact contained_reject hts nofun

theorem contained_whole : Contained line line.lexemes (line.whole R line.lexemes) := by
  unfold whole
  refine contained_skipNewlines.andThen fun u ts lt hts => ?_
  cases ts with
  | nil => exact contained_done
  | cons l ts =>
    refine (contained hs R .sum (l :: ts) hts).andThen fun e us lt hus => ?_
    rw [contained_widen, contained_map]
    exact contained_expectEnd (hus.trans hts)

end

/-! ## Positions -/

theorem stop_le_of_mem {symbols text cs : List Char} :
    ∀ l ∈ (scanFrom symbols text cs).1, l.stop ≤ text.length := by
  induction hn : cs.length using Nat.strongRecOn generalizing cs with
  | ind n ih =>
    rw [scanFrom_eq]
    cases hscan : Token.scan symbols cs with
    | error u => exact nofun
    | ok found =>
      obtain ⟨t, rest⟩ := found
      dsimp only
      by_cases hfinish : t = .finish
      · rw [if_pos hfinish]
        exact nofun
      · rw [if_neg hfinish]
        exact List.forall_mem_cons.2
          ⟨Nat.sub_le _ _, ih rest.length (hn ▸ Token.length_lt_of_scan hscan hfinish) rfl⟩

theorem cursor_le {symbols text : List Char} (hts : ts <:+ (scan symbols text).lexemes) :
    (scan symbols text).cursor ts ≤ text.length := by
  cases ts with
  | nil => exact Nat.le_refl _
  | cons l ts => exact stop_le_of_mem l (hts.subset List.mem_cons_self)

end Line

namespace Poly

theorem failure_of_read {R : PolyRing} {text : List Char} {e : ParseError}
    (h : read R text = .error e) : (Line.scan alphabet text).Failure e := by
  have hs := Line.scanned_lexemes alphabet text
  unfold read at h
  generalize Line.scan alphabet text = line at h hs ⊢
  dsimp only at h
  cases hstart : line.start with
  | error e' =>
    rw [hstart] at h
    cases h
    unfold Line.start at hstart
    split at hstart
    · cases hstart
      exact .unreadable _ (Line.fault_of_faultBefore (by assumption))
    · cases hstart
  | ok ts =>
    obtain ⟨-, rfl⟩ := Line.start_eq_ok.1 hstart
    have hcontained := Line.contained_whole (R := R) hs
    rw [hstart] at h
    cases houtcome : line.whole R line.lexemes with
    | done a rest lt => simp [bind, Except.bind, houtcome, Outcome.toExcept, pure, Except.pure] at h
    | failed e' rest =>
      rw [houtcome] at hcontained
      simp only [bind, Except.bind, houtcome, Outcome.toExcept, Except.error.injEq] at h
      exact h ▸ hcontained

/-- A line is read as a polynomial or rejected, unless an integer literal right after a caret is too
long to be converted. A rejection carries the line and a position in it; where the cause is a
character that starts no token, this is the first such character of the whole line. The arithmetic
on what is read is never refused. -/
theorem read_failures (R : PolyRing) (text : List Char) :
    (∀ l ts e rest, Phrase.Reads R l ts e rest → e.compute = .ok e.value) ∧
    match read R text with
    | .ok p => ∃ ts e, (Line.scan alphabet text).statement = .ok ts ∧ Phrase.Whole R ts e ∧
      e.compute = .ok p
    | .error (.rejected r) => r.line = text ∧ r.position ≤ text.length ∧
      ∀ reading e, r.cause = .unreadable reading e →
        r.position = e.position ∧ e.IsFirst alphabet text
    | .error (.oversized e) => ∃ ds, '.' ∉ ds ∧ digitLimit < ds.length ∧
      e = .tooManyDigits ds.length ∧
      [.mark .caret, .number ds] <:+: Line.tokensOf (Line.scan alphabet text).lexemes := by
  refine ⟨fun l ts e rest h => Expr.compute_eq_ok h.fits, ?_⟩
  cases hread : read R text with
  | ok p =>
    obtain ⟨ts, e, hts, he, rfl⟩ := read_eq_ok_iff.1 hread
    exact ⟨ts, e, hts, he, Expr.compute_eq_ok he.fits⟩
  | error e =>
    cases failure_of_read hread with
    | rejected hts hc =>
      exact ⟨rfl, Line.cursor_le hts, fun reading e he => absurd he (hc reading e)⟩
    | @unreadable reading e he =>
      have hfirst := Line.isFirst_of_fault he
      refine ⟨rfl, hfirst.position_le, fun reading' e' heq => ?_⟩
      cases heq
      exact ⟨rfl, hfirst⟩
    | oversized hds hpoint hlong => exact ⟨_, hpoint, hlong, rfl, hds⟩

/-- Two characters of this line start no token. The parser meets the first one when it has passed
the letter, and reports its offset. -/
theorem read_failures_two_faults :
    let R : PolyRing := ⟨.real, ['x', 'y'], by simp, by simp, by simp [alphabet]⟩
    let text := ['(', 'x', ' ', '$', 'y', '#']
    let e : LexError := ⟨text, 3, '$'⟩
    Poly.read R text = .error (.rejected ⟨.unreadable .advancing e, 3, text⟩) ∧
      3 ≤ text.length ∧ e.IsFirst alphabet text := by
  intro R text e
  have hread : Poly.read R text = .error (.rejected ⟨.unreadable .advancing e, 3, text⟩) := by
    cbv
  obtain ⟨-, hfailure⟩ := read_failures R text
  rw [hread] at hfailure
  obtain ⟨-, hposition, hcause⟩ := hfailure
  exact ⟨hread, hposition, (hcause _ _ rfl).2⟩

end Poly
end Multipoly
