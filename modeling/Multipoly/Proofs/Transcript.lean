import Multipoly.CommandLine
import Multipoly.Proofs.Failures
import Multipoly.Proofs.WrittenText

/-!
# Transcripts of runs

Each argument of a run is read for itself. What a run has written is put together from the lines of
its arguments in order, and the status tells whether one of them was rejected. A run ends early at
an exponent that is too long, either in the argument, where it cannot be read, or in the polynomial,
where it cannot be written.

Results:
* `CommandLine.argument_ok`, `CommandLine.argument_text_iff`: which arguments end a run;
* `CommandLine.records_cons`: one argument more;
* `CommandLine.run_complete_or_ended`: a run is complete, or ended by one of its arguments;
* `CommandLine.run_independent`: the transcript of every run;
* `CommandLine.run_long_product`: a run that is ended although every literal of it is short.
-/
namespace Multipoly.CommandLine

/-! ## Arguments -/

/-- An integer literal right after a caret of the argument is too long to be read. -/
def LongLiteral (arg : String) : Prop :=
  ∃ ds, '.' ∉ ds ∧ digitLimit < ds.length ∧
    [.mark .caret, .number ds] <:+: Line.tokensOf (Line.scan alphabet arg.toList).lexemes

/-- The argument is read, but an exponent in a non-zero term is too long to be written. -/
def LongExponent (arg : String) : Prop :=
  ∃ p, Poly.read PolyRing.standard arg.toList = .ok p ∧
    ∃ m ∈ p.nonzero, ∃ e ∈ m.powers, 10 ^ digitLimit ≤ e

/-- The argument is read as a polynomial. -/
def Accepted (arg : String) : Prop := ∃ p, Poly.read PolyRing.standard arg.toList = .ok p

/-- The output line of an accepted argument. -/
def outputLine? (arg : String) : Option String :=
  match Poly.read PolyRing.standard arg.toList with
  | .ok p => some (String.ofList p.text ++ "\n")
  | .error _ => none

/-- The error line of a rejected argument. -/
def errorLine? (arg : String) : Option String :=
  match Poly.read PolyRing.standard arg.toList with
  | .error (.rejected r) => some s!"SyntaxError at {r.position}: {r.cause.message}\n"
  | _ => none

variable {arg : String} {args : List String} {t u : Transcript}

theorem not_longLiteral (h : ∀ ds, .number ds ∈
    Line.tokensOf (Line.scan alphabet arg.toList).lexemes → ds.length ≤ digitLimit) :
    ¬ LongLiteral arg := by
  intro hliteral
  obtain ⟨ds, -, hlong, hinfix⟩ := hliteral
  have hmem := hinfix.subset (List.mem_cons_of_mem (Token.mark .caret) List.mem_cons_self)
  exact absurd hlong (Nat.not_lt.2 (h ds hmem))

theorem argument_of_read {p : Poly PolyRing.standard}
    (h : Poly.read PolyRing.standard arg.toList = .ok p) :
    argument arg =
      (p.write.mapError Abort.text).map fun cs => ⟨String.ofList cs ++ "\n", "", false⟩ := by
  unfold argument
  rw [h]
  dsimp only
  cases p.write <;> rfl

/-- An accepted argument can be written unless one of its exponents is too long. -/
theorem argument_of_short {p : Poly PolyRing.standard}
    (h : Poly.read PolyRing.standard arg.toList = .ok p) (hshort : ¬ LongExponent arg) :
    argument arg = .ok ⟨String.ofList p.text ++ "\n", "", false⟩ := by
  have hwrite : p.write = .ok p.text := by
    refine (Poly.write_eq_ok_iff rfl (.read h)).2 ⟨fun m hm e he => ?_, rfl⟩
    exact Nat.lt_of_not_le fun hle => hshort ⟨p, h, m, hm, e, he, hle⟩
  rw [argument_of_read h, hwrite]
  rfl

/-- An accepted argument ends the run if and only if one of its exponents is too long. -/
theorem argument_text_iff : (∃ e, argument arg = .error (.text e)) ↔ LongExponent arg := by
  constructor
  · intro hended
    obtain ⟨e, he⟩ := hended
    cases hread : Poly.read PolyRing.standard arg.toList with
    | ok p =>
      by_contra hshort
      rw [argument_of_short hread hshort] at he
      cases he
    | error e' =>
      unfold argument at he
      rw [hread] at he
      cases e' with
      | rejected r => cases he
      | oversized e' => cases he
  · intro hlong
    obtain ⟨p, hread, m, hm, e, he, hlarge⟩ := hlong
    rw [argument_of_read hread]
    cases hwrite : p.write with
    | error o => exact ⟨o, rfl⟩
    | ok cs =>
      obtain ⟨hshort, -⟩ := (Poly.write_eq_ok_iff rfl (.read hread)).1 hwrite
      exact absurd (hshort m hm e he) (Nat.not_lt.2 hlarge)

/-- What an argument has written, if it does not end the run. -/
theorem argument_eq_ok (h : argument arg = .ok t) :
    t.output = (outputLine? arg).getD "" ∧ t.errors = (errorLine? arg).getD "" ∧
      (t.rejected = false ↔ Accepted arg) := by
  cases hread : Poly.read PolyRing.standard arg.toList with
  | ok p =>
    have hshort : ¬ LongExponent arg := by
      rw [← argument_text_iff, h]
      exact fun hended => nomatch hended
    rw [argument_of_short hread hshort] at h
    cases h
    unfold outputLine? errorLine?
    rw [hread]
    exact ⟨rfl, rfl, iff_of_true rfl ⟨p, hread⟩⟩
  | error e =>
    unfold argument at h
    unfold outputLine? errorLine? Accepted
    rw [hread] at h ⊢
    cases e with
    | rejected r =>
      cases h
      exact ⟨rfl, rfl, iff_of_false nofun nofun⟩
    | oversized e => cases h

/-- An argument without exponents that are too long does not end the run. -/
theorem argument_ok (hliteral : ¬ LongLiteral arg) (hexponent : ¬ LongExponent arg) :
    ∃ t, argument arg = .ok t := by
  cases hread : Poly.read PolyRing.standard arg.toList with
  | ok p => exact ⟨_, argument_of_short hread hexponent⟩
  | error e =>
    cases e with
    | rejected r =>
      unfold argument
      rw [hread]
      exact ⟨_, rfl⟩
    | oversized e =>
      cases Poly.failure_of_read hread with
      | oversized hds hpoint hlong => exact absurd ⟨_, hpoint, hlong, hds⟩ hliteral

theorem long_of_argument_error {e : Abort} (h : argument arg = .error e) :
    LongLiteral arg ∨ LongExponent arg := by
  by_contra hshort
  obtain ⟨hliteral, hexponent⟩ := not_or.1 hshort
  obtain ⟨t, ht⟩ := argument_ok hliteral hexponent
  rw [h] at ht
  cases ht

/-! ## Runs -/

/-- What a complete run over the arguments has written. -/
structure Records (args : List String) (t : Transcript) : Prop where
  output : t.output = String.join (args.filterMap outputLine?)
  errors : t.errors = String.join (args.filterMap errorLine?)
  status_zero : t.status = 0 ↔ ∀ arg ∈ args, Accepted arg
  status_one : t.status = 1 ↔ ∃ arg ∈ args, ¬ Accepted arg

theorem status_eq_zero_iff : t.status = 0 ↔ t.rejected = false := by
  unfold Transcript.status
  cases t.rejected <;> decide

theorem status_eq_one_iff : t.status = 1 ↔ ¬ t.rejected = false := by
  unfold Transcript.status
  cases t.rejected <;> decide

theorem records_of_rejected (houtput : t.output = String.join (args.filterMap outputLine?))
    (herrors : t.errors = String.join (args.filterMap errorLine?))
    (hrejected : t.rejected = false ↔ ∀ arg ∈ args, Accepted arg) : Records args t := by
  refine ⟨houtput, herrors, status_eq_zero_iff.trans hrejected, ?_⟩
  rw [status_eq_one_iff, hrejected]
  simp only [not_forall, exists_prop]

theorem join_filterMap_cons (line? : String → Option String) (arg : String) (args : List String) :
    String.join ((arg :: args).filterMap line?) =
      (line? arg).getD "" ++ String.join (args.filterMap line?) := by
  rw [List.filterMap_cons]
  cases line? arg with
  | none => exact String.empty_append.symm
  | some line => exact String.join_cons

theorem records_nil : Records [] .empty := records_of_rejected rfl rfl (iff_of_true rfl nofun)

theorem records_cons (h : argument arg = .ok t) (hargs : Records args u) :
    Records (arg :: args) (t.append u) := by
  obtain ⟨houtput, herrors, hrejected⟩ := argument_eq_ok h
  refine records_of_rejected ?_ ?_ ?_
  · rw [Transcript.append, join_filterMap_cons, houtput, hargs.output]
  · rw [Transcript.append, join_filterMap_cons, herrors, hargs.errors]
  · rw [Transcript.append, Bool.or_eq_false_iff, hrejected, List.forall_mem_cons,
      ← status_eq_zero_iff, hargs.status_zero]

/-- One of the arguments has an exponent that is too long, and `t` is what the arguments before it
have written. -/
def EndsAt (args : List String) (t : Transcript) (e : Abort) : Prop :=
  ∃ before arg after, args = before ++ arg :: after ∧ argument arg = .error e ∧
    (LongLiteral arg ∨ LongExponent arg) ∧ run before = (t, none) ∧ Records before t

/-- One argument in front of a run. -/
theorem run_cons_ok (h : argument arg = .ok t) :
    run (arg :: args) = (t.append (run args).1, (run args).2) := by
  rw [run, h]

theorem run_cons_error {e : Abort} (h : argument arg = .error e) :
    run (arg :: args) = (.empty, some e) := by
  rw [run, h]

/-- A run is complete, or one of its arguments has ended it. -/
theorem run_complete_or_ended (args : List String) :
    (∃ t, run args = (t, none) ∧ Records args t) ∨
      ∃ t e, run args = (t, some e) ∧ EndsAt args t e := by
  induction args with
  | nil => exact .inl ⟨.empty, rfl, records_nil⟩
  | cons arg args ih =>
    cases harg : argument arg with
    | error e =>
      exact .inr ⟨.empty, e, run_cons_error harg, [], arg, args, rfl, harg,
        long_of_argument_error harg, rfl, records_nil⟩
    | ok t =>
      rcases ih with hcomplete | hended
      · obtain ⟨u, hrun, hrecords⟩ := hcomplete
        refine .inl ⟨t.append u, ?_, records_cons harg hrecords⟩
        rw [run_cons_ok harg, hrun]
      · obtain ⟨u, e, hrun, before, bad, after, rfl, hbad, hlong, hbefore, hrecords⟩ := hended
        refine .inr ⟨t.append u, e, ?_, arg :: before, bad, after, rfl, hbad, hlong, ?_,
          records_cons harg hrecords⟩
        · rw [run_cons_ok harg, hrun]
        · rw [run_cons_ok harg, hbefore]

/-! ## A long product -/

/-- The text of a power of `x` times `x`. -/
def powerTimesX (ds : List Char) : List Char := 'x' :: '^' :: (ds ++ ['*', 'x'])

theorem isZero_one_mul_one :
    Coefficient.isZero ((1 : PolyRing.standard.Carrier) * 1) = false := rfl

section
variable {ds : List Char} (hds : AllDigits ds)
include hds

open Line in
theorem scans_powerTimesX : Scans (powerTimesX ds)
    [.letter 'x', .mark .caret, .number ds, .mark .star, .letter 'x'] [] := by
  have hx : 'x' ∈ alphabet := by decide
  have hnumber : Scans (ds ++ ['*', 'x']) [.number ds] ['*', 'x'] :=
    .number (.whole hds) (endsNumber_cons (by decide) (by decide))
  exact (Scans.letter hx _).trans ((Scans.mark .caret _).trans (hnumber.trans
    ((Scans.mark .star _).trans (Scans.letter hx []))))

open Phrase in
theorem read_powerTimesX (hlength : ds.length ≤ digitLimit) :
    Poly.read PolyRing.standard (powerTimesX ds) =
      .ok ⟨[⟨1 * 1, [Literal.natural ds + 1, 0, 0]⟩]⟩ := by
  have hexponent : Literal.IsExponent ds := ⟨Literal.not_mem_point hds, hlength⟩
  have hslot : PolyRing.standard.slot? 'x' = some 0 := by decide
  have hleft : Unsigned PolyRing.standard
      [.letter 'x', .mark .caret, .number ds, .mark .star, .letter 'x']
      ⟨1, powersOf _ [(0, Literal.natural ds)]⟩ [.mark .star, .letter 'x'] :=
    .letters (by simp) (.raised hslot hexponent (.nil _))
  have hright : Unsigned PolyRing.standard [.letter 'x'] ⟨1, powersOf _ [(0, 1)]⟩ [] :=
    .letters (by simp) (.plain hslot (.nil _))
  have hreads := Reads.product ((Reads.factor (.run hleft (.stop (not_continuesRun_mark (by decide)
    (by decide))))).mul (.run hright (.stop not_continuesRun_nil)))
  have hproduct : Monomial.mul (R := PolyRing.standard)
      ⟨1, powersOf .standard [(0, Literal.natural ds)]⟩ ⟨1, powersOf .standard [(0, 1)]⟩ =
      ⟨1 * 1, [Literal.natural ds + 1, 0, 0]⟩ := by
    unfold Monomial.mul
    dsimp only
    rw [isZero_one_mul_one]
    rfl
  rw [Poly.read_of_scans (scans_powerTimesX hds) hreads, ← hproduct]
  rfl

theorem not_longLiteral_powerTimesX (hlength : ds.length ≤ digitLimit) :
    ¬ LongLiteral (String.ofList (powerTimesX ds)) := by
  refine not_longLiteral fun es hes => ?_
  rw [String.toList_ofList, (scans_powerTimesX hds).whole.1] at hes
  have heq : es = ds := by simpa using hes
  rw [heq]
  exact hlength

theorem longExponent_powerTimesX (hlength : ds.length ≤ digitLimit) :
    LongExponent (String.ofList (powerTimesX ds)) ↔ 10 ^ digitLimit ≤ Literal.natural ds + 1 := by
  unfold LongExponent
  rw [String.toList_ofList, read_powerTimesX hds hlength]
  constructor
  · intro hlong
    obtain ⟨p, hp, m, hm, e, he, hlarge⟩ := hlong
    cases hp
    cases List.mem_singleton.1 (List.mem_of_mem_filter hm)
    have hpos : 0 < 10 ^ digitLimit := Nat.pow_pos (by decide)
    simp only [List.mem_cons, List.not_mem_nil, or_false] at he
    omega
  · intro hlarge
    have hnonzero : (!Coefficient.isZero ((1 : PolyRing.standard.Carrier) * 1)) = true := by
      rw [isZero_one_mul_one]
      rfl
    exact ⟨_, rfl, _, List.mem_filter.2 ⟨List.mem_singleton_self _, hnonzero⟩, _,
      List.mem_cons_self, hlarge⟩

end

/-- As many nines as an exponent that is read may have. -/
def nines : List Char := List.replicate digitLimit '9'

theorem length_nines : nines.length = digitLimit := List.length_replicate

theorem allDigits_nines : AllDigits nines := by
  refine ⟨List.ne_nil_of_length_pos (by rw [length_nines]; decide), fun c hc => ?_⟩
  rw [List.eq_of_mem_replicate hc]
  rfl

theorem natural_nines (n : Nat) : Literal.natural (List.replicate n '9') + 1 = 10 ^ n := by
  induction n with
  | zero => rfl
  | succ n ih =>
    rw [List.replicate_succ', Literal.natural_append, pow_succ, ← ih]
    show _ * 10 + 9 + 1 = _
    omega

theorem longExponent_nines : LongExponent (String.ofList (powerTimesX nines)) :=
  (longExponent_powerTimesX allDigits_nines (Nat.le_of_eq length_nines)).2
    (Nat.le_of_eq (natural_nines digitLimit).symm)

/-! ## The transcript of every run -/

/-- Arguments are read and written independently. If no exponent of an argument is too long to be
read and none of an accepted argument is too long to be written, the run is complete. A complete run
has written the text of every accepted argument to the output and the rejection of every other one
to the error output, both in order, and its status is zero exactly when all are accepted and else
one. Any other run was ended by an argument with an exponent that is too long, and has written what
the arguments before it have written. -/
theorem run_independent (args : List String) :
    ((∀ arg ∈ args, ¬ LongLiteral arg ∧ ¬ LongExponent arg) → ∃ t, run args = (t, none)) ∧
    (∀ t, run args = (t, none) → Records args t) ∧
    ∀ t e, run args = (t, some e) → EndsAt args t e := by
  rcases run_complete_or_ended args with hcomplete | hended
  · obtain ⟨t, hrun, hrecords⟩ := hcomplete
    rw [hrun]
    refine ⟨fun _ => ⟨t, rfl⟩, fun u hu => ?_, nofun⟩
    cases hu
    exact hrecords
  · obtain ⟨t, e, hrun, hends⟩ := hended
    rw [hrun]
    refine ⟨fun hshort => ?_, nofun, fun u d hu => ?_⟩
    · obtain ⟨_, arg, _, rfl, -, hlong, -⟩ := hends
      obtain ⟨hliteral, hexponent⟩ := hshort arg (by simp)
      exact absurd hlong (not_or.2 ⟨hliteral, hexponent⟩)
    · cases hu
      exact hends

/-- `x^2*x` is accepted and `x)` is rejected. In another run an argument stands between them whose
product has an exponent that is too long. -/
theorem run_independent_rejected :
    let good := String.ofList (powerTimesX ['2'])
    let bad := String.ofList ['x', ')']
    let long := String.ofList (powerTimesX nines)
    (∃ t, run [good, bad] = (t, none) ∧ t.output = "x^3\n" ∧
      t.errors = "SyntaxError at 2: Invalid syntax: unexpected )\n" ∧ t.status = 1) ∧
    ∃ t e, run [good, long, bad] = (t, some e) ∧ t.output = "x^3\n" ∧
      EndsAt [good, long, bad] t e := by
  intro good bad long
  have htwo : AllDigits ['2'] := ⟨List.cons_ne_nil _ _, List.forall_mem_singleton.2 rfl⟩
  have hgood : Poly.read PolyRing.standard good.toList = .ok ⟨[⟨1 * 1, [3, 0, 0]⟩]⟩ := by
    rw [String.toList_ofList]
    exact read_powerTimesX htwo (by decide)
  have hshort : ¬ LongExponent good := by
    rw [longExponent_powerTimesX htwo (by decide), Nat.not_le]
    exact Nat.lt_of_lt_of_le (by decide) (Nat.le_self_pow (by decide) 10)
  have hbad : Poly.read PolyRing.standard bad.toList =
      .error (.rejected ⟨.trailing (.mark .closing), 2, ['x', ')']⟩) := by
    rw [String.toList_ofList]
    cbv
  have htokens : Line.tokensOf (Line.scan alphabet bad.toList).lexemes =
      [.letter 'x', .mark .closing] := by
    rw [String.toList_ofList]
    cbv
  have houtput : outputLine? good = some "x^3\n" ∧ outputLine? bad = none := by
    unfold outputLine?
    rw [hgood, hbad]
    exact ⟨rfl, rfl⟩
  have herrors : errorLine? good = none ∧
      errorLine? bad = some "SyntaxError at 2: Invalid syntax: unexpected )\n" := by
    unfold errorLine?
    rw [hgood, hbad]
    exact ⟨rfl, rfl⟩
  have hrejected : ¬ Accepted bad := by
    intro haccepted
    obtain ⟨p, hp⟩ := haccepted
    rw [hbad] at hp
    cases hp
  have hgoodShort := And.intro (not_longLiteral_powerTimesX htwo (by decide)) hshort
  have hbadShort : ¬ LongLiteral bad ∧ ¬ LongExponent bad := by
    refine ⟨not_longLiteral fun ds hds => ?_, fun hlong => hrejected (hlong.imp fun p hp => hp.1)⟩
    rw [htokens] at hds
    simp at hds
  constructor
  · obtain ⟨t, hrun⟩ := (run_independent [good, bad]).1
      (List.forall_mem_cons.2 ⟨hgoodShort, List.forall_mem_singleton.2 hbadShort⟩)
    have hrecords := (run_independent [good, bad]).2.1 t hrun
    refine ⟨t, hrun, ?_, ?_, hrecords.status_one.2 ⟨bad, by simp, hrejected⟩⟩
    · rw [hrecords.output, join_filterMap_cons, join_filterMap_cons, houtput.1, houtput.2]
      rfl
    · rw [hrecords.errors, join_filterMap_cons, join_filterMap_cons, herrors.1, herrors.2]
      rfl
  · obtain ⟨e, he⟩ := argument_text_iff.2 longExponent_nines
    have hrun := @run_cons_ok _ [long, bad] _ (argument_of_short hgood hshort)
    rw [run_cons_error he] at hrun
    exact ⟨_, _, hrun, rfl, (run_independent [good, long, bad]).2.2 _ _ hrun⟩

/-- No literal of this argument is too long to be read, but the product has the exponent
`10 ^ digitLimit`, which has a digit too many to be written. -/
theorem run_long_product :
    let arg := String.ofList (powerTimesX nines)
    (∀ a ∈ [arg], ¬ LongLiteral a) ∧ run [arg] = (.empty, some (.text {})) ∧
      ¬ ∃ t, run [arg] = (t, none) := by
  intro arg
  have hshort := not_longLiteral_powerTimesX allDigits_nines (Nat.le_of_eq length_nines)
  obtain ⟨e, he⟩ := argument_text_iff.2 longExponent_nines
  have hrun := @run_cons_error _ [] _ he
  refine ⟨List.forall_mem_singleton.2 hshort, hrun, fun hcomplete => ?_⟩
  obtain ⟨t, ht⟩ := hcomplete
  rw [hrun] at ht
  cases ht

end Multipoly.CommandLine
