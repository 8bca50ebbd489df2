import Multipoly.Proofs.RoundTrip

/-!
# Rendering and reading terms

A term is read on a line of its own: a minus sign that may stand in front, the magnitude with its
variables, and the end of the line. The text of a polynomial leaves out its zero terms, but the text
of a term keeps a zero with its variables, so every term with a decimal coefficient is read back as
it is.

Results:
* `Line.done_monomial`: the parser takes a monomial with its sign;
* `Monomial.read_of_scans`: a line whose tokens are such a monomial is read as it;
* `Monomial.signed_text`: the tokens of the text of a term;
* `Monomial.read_rendered`: the text is written, and it is read back.
-/
namespace Multipoly
open Phrase

variable {R : PolyRing}

/-! ## Monomials with a sign -/

/-- A monomial, which a minus sign may precede. -/
inductive Phrase.Signed (R : PolyRing) : List Token → Monomial R → List Token → Prop
  | plain {ts rest : List Token} {m : Monomial R} (h : Unsigned R ts m rest) : Signed R ts m rest
  | minus {ts rest : List Token} {m : Monomial R} (h : Unsigned R ts m rest) :
      Signed R (.mark .minus :: ts) m.neg rest

theorem Line.done_monomial {line : Line} {ts : List Lexeme} {t r : List Token} {m : Monomial R}
    (h : Signed R t m r) (ht : tokensOf ts = t) (hs : Scanned t) (hclear : Clear line r)
    (hr : Follows .factor r) : ∃ us, tokensOf us = r ∧ (line.monomial R ts).Done m us := by
  cases h with
  | plain h =>
    obtain ⟨us, hus, hdone⟩ := done_unsigned h ht hs hclear hr
    obtain ⟨c, cs, rfl, hstarts⟩ := h.starts
    obtain ⟨stop, ts, rfl, -⟩ := tokensOf_eq_cons ht
    have hminus : c ≠ .mark .minus := by
      rintro rfl
      cases hstarts
    refine ⟨us, hus, ?_⟩
    unfold monomial
    dsimp only
    rw [if_neg hminus]
    exact hdone
  | minus h =>
    obtain ⟨stop, ts, rfl, hts⟩ := tokensOf_eq_cons ht
    obtain ⟨us, hus, hdone⟩ := done_unsigned h hts hs.tail hclear hr
    refine ⟨us, hus, ?_⟩
    unfold monomial
    dsimp only
    rw [if_pos rfl, done_advance, Outcome.done_widen, Outcome.done_map]
    exact ⟨(hts ▸ hclear.mono h.suffix).faultBefore, _, hdone, rfl⟩

namespace Monomial
variable {m : Monomial R}

/-- A line whose tokens are a monomial with its sign is read as it. -/
theorem read_of_scans {cs : List Char} {us : List Token} (hscans : Line.Scans cs us [])
    (h : Signed R us m []) : Monomial.read R cs = .ok m := by
  obtain ⟨htokens, hfault⟩ := hscans.whole
  have hs : Line.Scanned us := htokens ▸ Line.scanned_lexemes alphabet cs
  obtain ⟨rest, hrest, hdone⟩ :=
    Line.done_monomial h htokens hs (.inl hfault) (fun _ ht => nomatch ht)
  have hstart := Line.start_eq_ok.2 ⟨Line.faultBefore_eq_none.2 fun _ => hfault, rfl⟩
  have hends : (Line.current rest).endsLine = true := by
    rw [Line.current_eq, hrest]
    rfl
  unfold Monomial.read
  simp only [hstart, bind, Except.bind]
  rw [Outcome.toExcept_eq_ok_iff]
  unfold Line.wholeMonomial
  simp only [Outcome.done_andThen, Outcome.done_widen, Outcome.done_map]
  exact ⟨rest, m, rest, hdone.length_lt, hdone, (), Line.done_expectEnd.2 ⟨hends, rfl⟩, rfl⟩

/-! ## The round trip -/

theorem neg_magnitude (h : R.domain ≠ .real) (hneg : m.isNegative = true) :
    m.magnitude.neg = m := by
  have hcoeff := negate_magnitude h hneg
  cases m
  exact congrArg (Monomial.mk · _) hcoeff

/-- The tokens of a decimal term are a monomial with its sign. -/
theorem signed_text (h : R.domain ≠ .real) (hfits : m.Fits) (hm : m.Terminates)
    (hruns : ShortRuns m.text) : ∃ us, Line.Scans m.text us [] ∧ Signed R us m [] := by
  obtain ⟨us, hscans, hreads⟩ := scans_magnitude h hfits hm (hruns.mono (Poly.isInfix_text m))
  have hscan := scans_text (hscans [] Line.endsNumber_nil)
  have hread := hreads []
  rw [List.append_nil] at hscan hread
  refine ⟨m.leading ++ us, hscan, ?_⟩
  unfold leading
  cases hneg : m.isNegative with
  | true =>
    rw [← neg_magnitude h hneg]
    exact .minus hread
  | false =>
    rw [magnitude_eq_self hneg] at hread
    exact .plain hread

theorem terminates_of_integer (hd : R.domain = .integer) (m : Monomial R) : m.Terminates := by
  have hinteger : ∀ (d : Domain) (c : d.Carrier), d = .integer →
      Rational.Terminates (d.toRat c) := by
    intro d c hd
    subst hd
    exact Rational.terminates_intCast c
  exact hinteger R.domain m.coeff hd

/-- The text of an integer term, or of a rational one whose denominator has no primes but 2 and 5,
is written and read back as the very term, when no run of its digits is too long.
`Monomial.granted_iff_fits` provides the hypothesis on the powers. -/
theorem read_rendered
    (hcoeff : R.domain = .integer ∨ R.domain = .rational ∧ m.Terminates) (hfits : m.Fits)
    (hruns : ShortRuns m.text) : m.write = .ok m.text ∧ Monomial.read R m.text = .ok m := by
  have h : R.domain ≠ .real := by
    rcases hcoeff with hd | ⟨hd, -⟩ <;> rw [hd] <;> decide
  have hm : m.Terminates := by
    rcases hcoeff with hd | ⟨-, hm⟩
    · exact terminates_of_integer hd m
    · exact hm
  obtain ⟨us, hscans, hsigned⟩ := signed_text h hfits hm hruns
  exact ⟨hruns.written, read_of_scans hscans hsigned⟩

/-- A zero keeps its variable, and a magnitude below one its sign. -/
theorem read_rendered_zero :
    let R : PolyRing := ⟨.integer, ['x', 'y'], by simp, by simp, by simp [alphabet]⟩
    let S : PolyRing := ⟨.rational, ['x', 'y'], by simp, by simp, by simp [alphabet]⟩
    let m : Monomial R := ⟨(0 : Int), [0, 12]⟩
    let n : Monomial S := ⟨(-3 / 40 : Rat), [1, 1]⟩
    let cs := ['0', 'y', '^', '1', '2']
    let ds := ['-', '0', '.', '0', '7', '5', 'x', 'y']
    m.Fits ∧ n.Fits ∧ n.Terminates ∧ ShortRuns cs ∧ ShortRuns ds ∧
      m.write = .ok cs ∧ Monomial.read R cs = .ok m ∧
      n.write = .ok ds ∧ Monomial.read S ds = .ok n := by
  intro R S m n cs ds
  have hcs : ShortRuns cs := shortRuns_of_length_le (by decide)
  have hds : ShortRuns ds := shortRuns_of_length_le (by decide)
  have hm : m.text = cs := by cbv
  have hn : n.text = ds := by cbv
  have hterminates : n.Terminates := ⟨3, 1, by cbv⟩
  have hzero := @read_rendered R m (.inl rfl) rfl (hm ▸ hcs)
  have hnegative := @read_rendered S n (.inr ⟨rfl, hterminates⟩) rfl (hn ▸ hds)
  rw [hm] at hzero
  rw [hn] at hnegative
  exact ⟨rfl, rfl, hterminates, hcs, hds, hzero.1, hzero.2, hnegative.1, hnegative.2⟩

end Monomial
end Multipoly
