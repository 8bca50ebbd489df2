import Multipoly.Proofs.Rendering

/-!
# Rendering and reading

The text of a polynomial over an exact domain is read back. A text whose coefficients are decimals
is one run: the scanner finds the tokens of each term, a sign stands between two of them, and the
terms are merged in the order in which they are listed. A coefficient that is no decimal is written
with a slash, at which the parser stops.

Results:
* `Poly.read_of_terminates`: the non-zero terms are read back as they are;
* `Poly.read_of_not_terminates`: a coefficient that is no decimal makes the text illegible;
* `Poly.read_text`: both, for any well-formed polynomial whose text has no long runs of digits.
-/
namespace Multipoly
open Phrase

variable {R : PolyRing}

/-! ## Merging in order -/

namespace Poly

/-- A term that comes after all others is appended. -/
theorem merge_append {join : R.Carrier → R.Carrier} {fresh : R.Carrier} {u : Powers}
    {ms : List (Monomial R)} (h : ∀ m ∈ ms, m.powers.order u = .lt) :
    merge join fresh u ms = ms ++ [⟨fresh, u⟩] := by
  induction ms with
  | nil => rfl
  | cons m ms ih =>
    rw [merge, Powers.order_gt_iff.2 (h m List.mem_cons_self)]
    dsimp only
    rw [ih fun n hn => h n (List.mem_cons_of_mem _ hn), List.cons_append]

end Poly

namespace Monomial

/-- The sign of a term. -/
def sign (m : Monomial R) : Sign := if m.isNegative then .minus else .plus

/-- A term as a sign in front of its magnitude. -/
def signed (m : Monomial R) : Sign × Monomial R := (m.sign, m.magnitude)

theorem negate_magnitude (h : R.domain ≠ .real) {m : Monomial R} (hneg : m.isNegative = true) :
    Coefficient.negate m.magnitude.coeff = m.coeff := by
  rw [← Domain.toRat_inj h, Domain.toRat_negate h, magnitude, Domain.toRat_absolute h,
    abs_of_neg ((Domain.isNegative_iff h).1 hneg), neg_neg]

theorem magnitude_eq_self {m : Monomial R} (hneg : m.isNegative = false) : m.magnitude = m := by
  have hneg' : Coefficient.isNegative m.coeff = false := hneg
  rw [magnitude, Coefficient.absolute, hneg']
  rfl

end Monomial

section
variable (h : R.domain ≠ .real)
include h

theorem Sign.merge_signed {m : Monomial R} {ms : List (Monomial R)}
    (hms : ∀ n ∈ ms, n.order m = .lt) : m.sign.merge ⟨ms⟩ m.magnitude = ⟨ms ++ [m]⟩ := by
  unfold Monomial.sign
  cases hneg : m.isNegative with
  | true =>
    show Poly.subTerm ⟨ms⟩ m.magnitude = _
    rw [Poly.subTerm, Monomial.negate_magnitude h hneg]
    exact congrArg Poly.mk (Poly.merge_append hms)
  | false =>
    show Poly.addTerm ⟨ms⟩ m.magnitude = _
    rw [Monomial.magnitude_eq_self hneg]
    exact congrArg Poly.mk (Poly.merge_append hms)

/-- Strictly ordered terms are merged to what they are. -/
theorem Run.value_signed {ms : List (Monomial R)}
    (hms : ms.Pairwise fun m n => m.order n = .lt) :
    Run.value (ms.map Monomial.signed) = ⟨ms⟩ := by
  have hfold : ∀ (ns ms : List (Monomial R)),
      (ns ++ ms).Pairwise (fun m n => m.order n = .lt) →
      (ms.map Monomial.signed).foldl (fun p f => f.1.merge p f.2) ⟨ns⟩ = (⟨ns ++ ms⟩ : Poly R) := by
    intro ns ms
    induction ms generalizing ns with
    | nil => intro _; rw [List.append_nil]; rfl
    | cons m ms ih =>
      intro hpairwise
      have hlast : ∀ n ∈ ns, n.order m = .lt := fun n hn =>
        (List.pairwise_append.1 hpairwise).2.2 n hn m List.mem_cons_self
      have happend : ns ++ m :: ms = (ns ++ [m]) ++ ms := by simp
      rw [happend] at hpairwise ⊢
      rw [List.map_cons, List.foldl_cons]
      show (ms.map Monomial.signed).foldl _ (m.sign.merge ⟨ns⟩ m.magnitude) = _
      rw [Sign.merge_signed h hlast]
      exact ih (ns ++ [m]) hpairwise
  exact hfold [] ms hms

end

/-! ## The tokens of a polynomial -/

namespace Monomial
variable {m : Monomial R}

/-- The token of the minus sign in front of the first term, if it has one. -/
def leading (m : Monomial R) : List Token := if m.isNegative then [.mark .minus] else []

theorem scans_text {us : List Token} {cs cs' : List Char}
    (h : Line.Scans (m.magnitudeText ++ cs) us cs') :
    Line.Scans (m.text ++ cs) (m.leading ++ us) cs' := by
  unfold text leading
  split
  · exact (Line.Scans.mark .minus _).trans h
  · exact h

theorem reads_leading {m' : Monomial R} {us ts rest : List Token} {rs : Run R}
    (h : Unsigned R us m' ts) (hrs : RunRest R ts rs rest) :
    Reads R .factor (m.leading ++ us) (.run ((m.sign, m') :: rs)) rest := by
  unfold leading sign
  split
  · exact .minusRun h hrs
  · exact .run h hrs

theorem scans_joined {us : List Token} {cs cs' : List Char}
    (h : Line.Scans (m.magnitudeText ++ cs) us cs') :
    Line.Scans (Poly.restText [m] ++ cs) (m.sign.token :: us) cs' := by
  have htext : Poly.restText [m] ++ cs =
      ' ' :: (if m.isNegative then '-' else '+') :: ' ' :: (m.magnitudeText ++ cs) := by
    simp [Poly.restText]
  have hsign : ∀ ds, Line.Scans ((if m.isNegative then '-' else '+') :: ds) [m.sign.token] ds := by
    intro ds
    unfold sign
    split
    · exact .mark .minus ds
    · exact .mark .plus ds
  rw [htext]
  exact (Line.Scans.gap _).trans ((hsign _).trans ((Line.Scans.gap _).trans h))

end Monomial

namespace Poly

theorem restText_cons (m : Monomial R) (ms : List (Monomial R)) :
    restText (m :: ms) = restText [m] ++ restText ms := by
  simp [restText]

theorem endsNumber_restText (ms : List (Monomial R)) {cs : List Char} (hcs : Line.EndsNumber cs) :
    Line.EndsNumber (restText ms ++ cs) := by
  cases ms with
  | nil => exact hcs
  | cons m ms => exact Line.endsNumber_cons (by decide) (by decide)

theorem isInfix_restText (m : Monomial R) : m.magnitudeText <:+: restText [m] := by
  have hsuffix : m.magnitudeText <:+ restText [m] := by
    refine ⟨[' ', if m.isNegative then '-' else '+', ' '], ?_⟩
    simp [restText]
  exact hsuffix.isInfix

theorem isInfix_text (m : Monomial R) : m.magnitudeText <:+: m.text := by
  unfold Monomial.text
  split
  · exact (List.suffix_cons _ _).isInfix
  · exact List.infix_rfl

/-- Decimal terms after the first one go on the run. -/
theorem scans_restText (h : R.domain ≠ .real) {ms : List (Monomial R)} (hfits : ∀ m ∈ ms, m.Fits)
    (hms : ∀ m ∈ ms, m.Terminates) (hruns : ShortRuns (restText ms)) :
    ∃ us, (∀ cs, Line.EndsNumber cs → Line.Scans (restText ms ++ cs) us cs) ∧
      ∀ ts rs rest, RunRest R ts rs rest →
        RunRest R (us ++ ts) (ms.map Monomial.signed ++ rs) rest := by
  induction ms with
  | nil => exact ⟨[], fun cs _ => .refl cs, fun _ _ _ hrs => hrs⟩
  | cons m ms ih =>
    rw [restText_cons] at hruns
    obtain ⟨vs, hscans, hreads⟩ := ih (fun n hn => hfits n (List.mem_cons_of_mem _ hn))
      (fun n hn => hms n (List.mem_cons_of_mem _ hn))
      (hruns.mono (List.suffix_append _ _).isInfix)
    obtain ⟨us, hscans', hreads'⟩ := Monomial.scans_magnitude h (hfits m List.mem_cons_self)
      (hms m List.mem_cons_self)
      (hruns.mono ((isInfix_restText m).trans (List.prefix_append _ _).isInfix))
    refine ⟨m.sign.token :: us ++ vs, fun cs hcs => ?_, fun ts rs rest hrs => ?_⟩
    · rw [restText_cons, List.append_assoc]
      exact (Monomial.scans_joined (hscans' _ (endsNumber_restText ms hcs))).trans (hscans cs hcs)
    · rw [List.append_assoc]
      exact .next (hreads' _) (hreads ts rs rest hrs)

/-- A decimal first term starts the run. -/
theorem scans_first (h : R.domain ≠ .real) {m : Monomial R} (hfits : m.Fits)
    (hm : m.Terminates) (hruns : ShortRuns m.text) :
    ∃ us, (∀ cs, Line.EndsNumber cs → Line.Scans (m.text ++ cs) us cs) ∧
      ∀ ts rs rest, RunRest R ts rs rest →
        Reads R .factor (us ++ ts) (.run (m.signed :: rs)) rest := by
  obtain ⟨us, hscans, hreads⟩ :=
    Monomial.scans_magnitude h hfits hm (hruns.mono (isInfix_text m))
  refine ⟨m.leading ++ us, fun cs hcs => Monomial.scans_text (hscans cs hcs), ?_⟩
  intro ts rs rest hrs
  rw [List.append_assoc]
  exact Monomial.reads_leading (hreads ts) hrs

/-- Decimal terms are one run. -/
theorem scans_terms (h : R.domain ≠ .real) {m : Monomial R} {ms : List (Monomial R)}
    (hfits : ∀ n ∈ m :: ms, n.Fits) (hms : ∀ n ∈ m :: ms, n.Terminates)
    (hruns : ShortRuns (m.text ++ restText ms)) :
    ∃ us, (∀ cs, Line.EndsNumber cs → Line.Scans (m.text ++ (restText ms ++ cs)) us cs) ∧
      ∀ ts rs rest, RunRest R ts rs rest →
        Reads R .factor (us ++ ts) (.run ((m :: ms).map Monomial.signed ++ rs)) rest := by
  obtain ⟨us, hscans, hreads⟩ := scans_first h (hfits m List.mem_cons_self)
    (hms m List.mem_cons_self) (hruns.mono (List.prefix_append _ _).isInfix)
  obtain ⟨vs, hscans', hreads'⟩ := scans_restText h
    (fun n hn => hfits n (List.mem_cons_of_mem _ hn))
    (fun n hn => hms n (List.mem_cons_of_mem _ hn))
    (hruns.mono (List.suffix_append _ _).isInfix)
  refine ⟨us ++ vs, fun cs hcs => ?_, fun ts rs rest hrs => ?_⟩
  · exact (hscans _ (endsNumber_restText ms hcs)).trans (hscans' cs hcs)
  · rw [List.append_assoc]
    exact hreads _ _ _ (hreads' ts rs rest hrs)

theorem text_of_nonzero {p : Poly R} {m : Monomial R} {ms : List (Monomial R)}
    (h : p.nonzero = m :: ms) : p.text = m.text ++ restText ms := by
  rw [text, h]

/-! ## Decimal coefficients -/

/-- A line whose tokens are a sum is read as its value. -/
theorem read_of_scans {cs : List Char} {us : List Token} {e : Expr R}
    (hscans : Line.Scans cs us []) (hreads : Reads R .sum us e []) :
    Poly.read R cs = .ok e.value := by
  obtain ⟨htokens, hfault⟩ := hscans.whole
  obtain ⟨us', heq, hnewline, -, -⟩ := hreads.taken
  rw [List.append_nil] at heq
  rw [← heq] at hnewline
  refine read_eq_ok_iff.2
    ⟨us, e, Line.statement_eq_ok_iff.2 ⟨hnewline, [], ?_, ?_⟩, .sum hreads, rfl⟩
  · obtain ⟨t, ts, rfl, -⟩ := hreads.starts
    rw [List.append_nil]
    rw [htokens, List.dropWhile_cons_of_neg]
    simp only [decide_eq_true_eq]
    intro heq
    subst heq
    exact hnewline List.mem_cons_self
  · exact .inl ⟨rfl, hfault⟩

/-- The empty text has the polynomial without terms. -/
theorem read_nil (R : PolyRing) : Poly.read R [] = .ok empty := by
  have hscan : Line.scan alphabet [] = ⟨[], [], none⟩ := by rw [Line.scan, Line.scanFrom_nil]
  rw [read_eq_ok_iff, hscan]
  exact ⟨[], _, rfl, .blank, rfl⟩

theorem read_of_terminates (h : R.domain ≠ .real) {p : Poly R} (hp : p.WellFormed)
    (hruns : ShortRuns p.text) (hms : ∀ m ∈ p.nonzero, m.Terminates) :
    Poly.read R p.text = .ok ⟨p.nonzero⟩ := by
  cases hterms : p.nonzero with
  | nil =>
    have htext : p.text = [] := by rw [text, hterms]
    rw [htext]
    exact read_nil R
  | cons m ms =>
    rw [text_of_nonzero hterms] at hruns ⊢
    obtain ⟨us, hscans, hreads⟩ :=
      scans_terms h (hterms ▸ hp.prune.fits) (hterms ▸ hms) hruns
    have hscan := hscans [] Line.endsNumber_nil
    have hread := hreads [] [] [] (.stop not_continuesRun_nil)
    rw [List.append_nil] at hscan hread
    rw [read_of_scans hscan (.product (.factor hread)), List.append_nil]
    exact congrArg Except.ok (Run.value_signed h (hterms ▸ hp.prune.ordered))

/-! ## Other coefficients -/

/-- A line whose tokens up to a slash are a sum is rejected at the slash. -/
theorem read_of_slash {cs cs' : List Char} {us : List Token} {e : Expr R}
    (hscans : Line.Scans cs (us ++ [.mark .slash]) cs')
    (hreads : ∀ ts, Reads R .sum (us ++ .mark .slash :: ts) e (.mark .slash :: ts)) :
    ∃ r, Poly.read R cs = .error (.rejected r) ∧ r.cause = .trailing (.mark .slash) := by
  obtain ⟨htokens, -⟩ := hscans cs
  have hs := Line.scanned_lexemes alphabet cs
  rw [List.append_assoc] at htokens
  have hread : Reads R .sum (Line.tokensOf (Line.scan alphabet cs).lexemes) e _ :=
    htokens ▸ hreads _
  obtain ⟨r, hr, hcause⟩ := @Line.rejected_of_trailing (Line.scan alphabet cs) R _ e .slash _ hs
    (Sign.token_ne_mark (by decide) (by decide)) (by decide) (by decide) hread
  have hne : (Line.scan alphabet cs).lexemes ≠ [] := by
    intro hnil
    rw [hnil] at hread
    exact Reads.ne_nil hread
  have hstart := Line.start_eq_ok.2 ⟨Line.faultBefore_eq_none.2 fun h => absurd h hne, rfl⟩
  refine ⟨r, ?_, hcause⟩
  unfold Poly.read
  simp only [hstart, bind, Except.bind, hr]

/-- The first element that has no property, after those that have it. -/
theorem exists_first {α : Type} {P : α → Prop} {xs : List α} (h : ∃ x ∈ xs, ¬ P x) :
    ∃ ys x zs, xs = ys ++ x :: zs ∧ (∀ y ∈ ys, P y) ∧ ¬ P x := by
  induction xs with
  | nil =>
    obtain ⟨_, hx, -⟩ := h
    cases hx
  | cons x xs ih =>
    by_cases hx : P x
    · have hrest : ∃ y ∈ xs, ¬ P y := by
        obtain ⟨y, hy, hPy⟩ := h
        rcases List.mem_cons.1 hy with rfl | hy
        · exact absurd hx hPy
        · exact ⟨y, hy, hPy⟩
      obtain ⟨ys, y, zs, rfl, hys, hy⟩ := ih hrest
      exact ⟨x :: ys, y, zs, rfl, List.forall_mem_cons.2 ⟨hx, hys⟩, hy⟩
    · exact ⟨[], x, xs, rfl, by simp, hx⟩

theorem read_of_not_terminates (h : R.domain ≠ .real) {p : Poly R} (hp : p.WellFormed)
    (hruns : ShortRuns p.text) (hms : ∃ m ∈ p.nonzero, ¬ m.Terminates) :
    ∃ r, Poly.read R p.text = .error (.rejected r) ∧ r.cause = .trailing (.mark .slash) := by
  obtain ⟨ms, m, ns, hterms, hgood, hm⟩ := exists_first hms
  have hslash : ∀ ts, RunRest R (.mark .slash :: ts) [] (.mark .slash :: ts) := fun ts =>
    .stop (not_continuesRun_mark (by decide) (by decide))
  cases ms with
  | nil =>
    rw [List.nil_append] at hterms
    rw [text_of_nonzero hterms] at hruns ⊢
    obtain ⟨ds, cs, hscans, n, hn⟩ := Monomial.scans_quotient h hm
      (hruns.mono ((isInfix_text m).trans (List.prefix_append _ _).isInfix))
    have hscan := Monomial.scans_text (hscans (restText ns))
    have hread : ∀ ts, Reads R .sum (m.leading ++ [.number ds] ++ .mark .slash :: ts)
        (.run [(m.sign, n)]) (.mark .slash :: ts) := by
      intro ts
      rw [List.append_assoc]
      exact .product (.factor (Monomial.reads_leading (hn _) (hslash ts)))
    exact read_of_slash (by rwa [List.append_assoc]) hread
  | cons m₀ ms =>
    have hfits : ∀ n ∈ m₀ :: ms, n.Fits := by
      intro n hn
      refine hp.prune.fits n ?_
      rw [prune, hterms]
      exact List.mem_append_left _ hn
    have hsplit : restText (ms ++ m :: ns) = restText ms ++ (restText [m] ++ restText ns) := by
      simp [restText]
    rw [List.cons_append] at hterms
    rw [text_of_nonzero hterms, hsplit] at hruns ⊢
    rw [← List.append_assoc] at hruns
    obtain ⟨us, hscans, hreads⟩ :=
      scans_terms h hfits hgood (hruns.mono (List.prefix_append _ _).isInfix)
    obtain ⟨ds, cs, hscans', n, hn⟩ := Monomial.scans_quotient h hm
      ((hruns.mono (List.suffix_append _ _).isInfix).mono
        ((isInfix_restText m).trans (List.prefix_append _ _).isInfix))
    have hend : Line.EndsNumber (restText [m] ++ restText ns) :=
      Line.endsNumber_cons (by decide) (by decide)
    have hscan := (hscans _ hend).trans (Monomial.scans_joined (hscans' (restText ns)))
    have hread : ∀ ts, Reads R .sum (us ++ [m.sign.token, .number ds] ++ .mark .slash :: ts)
        (.run ((m₀ :: ms).map Monomial.signed ++ [(m.sign, n)])) (.mark .slash :: ts) := by
      intro ts
      rw [List.append_assoc]
      exact .product (.factor (hreads _ _ _ (.next (hn _) (hslash ts))))
    exact read_of_slash (by rwa [List.append_assoc]) hread

/-! ## The round trip -/

/-- The text of a well-formed polynomial over an exact domain, when no run of its digits is too
long, is written; it is read back as the non-zero terms if their coefficients are decimals, which
integers are, and is rejected as malformed otherwise. `Poly.Reachable.wellFormed` provides the
hypothesis on the terms. -/
theorem read_text (h : R.domain ≠ .real) {p : Poly R} (hp : p.WellFormed)
    (hruns : ShortRuns p.text) :
    p.write = .ok p.text ∧
      ((∀ m ∈ p.nonzero, m.Terminates) →
        ∃ q, Poly.read R p.text = .ok q ∧ q.terms = p.nonzero ∧ q.same p = true ∧
          q.text = p.text) ∧
      (R.domain = .integer → ∀ m ∈ p.nonzero, m.Terminates) ∧
      (p.nonzero = [] → p.text = [] ∧ Poly.read R p.text = .ok empty) ∧
      ((∃ m ∈ p.nonzero, ¬ m.Terminates) →
        ∃ r, Poly.read R p.text = .error (.rejected r) ∧ r.cause.kind = .structural) := by
  refine ⟨hruns.written, fun hms => ?_, fun hdomain m _ => ?_, fun hnil => ?_, fun hms => ?_⟩
  · refine ⟨⟨p.nonzero⟩, read_of_terminates h hp hruns hms, rfl, ?_, ?_⟩
    · rw [same, nonzero_nonzero, sameTerms_self h, beq_self_eq_true]
      rfl
    · rw [text, text, nonzero_nonzero]
  · have hint : ∀ (d : Domain) (c : d.Carrier), d = .integer → Rational.Terminates (d.toRat c) := by
      intro d c hd
      subst hd
      exact Rational.terminates_intCast c
    exact hint R.domain m.coeff hdomain
  · have htext : p.text = [] := by rw [text, hnil]
    rw [htext]
    exact ⟨rfl, read_nil R⟩
  · obtain ⟨r, hr, hcause⟩ := read_of_not_terminates h hp hruns hms
    exact ⟨r, hr, by rw [hcause]; rfl⟩

/-- The text of `3/2 x²y + 0 x - 1`, which leaves out the zero term. -/
theorem read_text_three_halves :
    let R : PolyRing := ⟨.rational, ['x', 'y'], by simp, by simp, by simp [alphabet]⟩
    let p : Poly R := ⟨[⟨(3 / 2 : Rat), [2, 1]⟩, ⟨(0 : Rat), [1, 0]⟩, ⟨(-1 : Rat), [0, 0]⟩]⟩
    let cs := ['1', '.', '5', 'x', '^', '2', 'y', ' ', '-', ' ', '1']
    R.domain ≠ .real ∧ p.WellFormed ∧ ShortRuns p.text ∧ p.write = .ok cs ∧
      ∃ q, Poly.read R cs = .ok q ∧ q.terms = p.nonzero ∧ q.same p = true ∧ q.text = cs := by
  intro R p cs
  have hexact : R.domain ≠ .real := by decide
  have hp : p.WellFormed := ⟨by unfold Ordered; decide, by decide⟩
  have htext : p.text = cs := by cbv
  have hruns : ShortRuns p.text := shortRuns_of_length_le (by rw [htext]; decide)
  have hnonzero : p.nonzero = [⟨(3 / 2 : Rat), [2, 1]⟩, ⟨(-1 : Rat), [0, 0]⟩] := by cbv
  have hms : ∀ m ∈ p.nonzero, m.Terminates := by
    have hden : (3 / 2 : Rat).den = 2 ^ 1 * 5 ^ 0 := by cbv
    rw [hnonzero]
    exact List.forall_mem_cons.2 ⟨⟨1, 0, hden⟩, List.forall_mem_singleton.2 ⟨0, 0, rfl⟩⟩
  obtain ⟨hwrite, hread, -⟩ := read_text hexact hp hruns
  rw [htext] at hwrite hread hruns ⊢
  exact ⟨hexact, hp, hruns, hwrite, hread hms⟩

end Poly

end Multipoly
