import Multipoly.Proofs.DecimalText
import Multipoly.Proofs.Meaning

/-!
# The tokens of rendered terms

What the scanner makes of the text of a term, whatever stands before and after it, and how the
parser reads these tokens. A number in the text is followed by a letter, a space, a slash or the
end, so the scanner never takes more than the number that was written.

Results:
* `Line.Scans.number`: a number token goes as far as the number that was written;
* `Phrase.powersOf_factorsOf`: the powers that were written are the powers that are read;
* `Monomial.scans_magnitude`: the text of a decimal magnitude with its variables is read back;
* `Monomial.scans_quotient`: the text of any other magnitude is cut at the slash.
-/
namespace Multipoly
open Phrase

/-! ## Digit runs -/

/-- No run of digits exceeds the limit, zeros in front of a number counted. -/
def ShortRuns (cs : List Char) : Prop :=
  ∀ ds, ds <:+: cs → AllDigits ds → ds.length ≤ digitLimit

theorem ShortRuns.mono {cs ds : List Char} (h : ShortRuns cs) (hds : ds <:+: cs) : ShortRuns ds :=
  fun es hes => h es (hes.trans hds)

theorem shortRuns_of_length_le {cs : List Char} (h : cs.length ≤ digitLimit) : ShortRuns cs :=
  fun _ hds _ => Nat.le_trans hds.length_le h

/-- A text without long runs can be written: a number that goes on a run is no longer than it. -/
theorem ShortRuns.longestFrom_le {cs ds : List Char} {current : Nat}
    (h : ShortRuns (ds ++ cs)) (hds : ∀ c ∈ ds, c.isDigit = true) (hcurrent : current ≤ ds.length) :
    Numeral.longestFrom current cs ≤ digitLimit := by
  have hlimit : current ≤ digitLimit := by
    by_cases hne : ds = []
    · rw [hne] at hcurrent
      exact Nat.le_trans hcurrent (Nat.zero_le _)
    · exact Nat.le_trans hcurrent (h ds (List.prefix_append _ _).isInfix ⟨hne, hds⟩)
  induction cs generalizing ds current with
  | nil => exact hlimit
  | cons c cs ih =>
    rw [Numeral.longestFrom]
    by_cases hc : c.isDigit = true
    · rw [if_pos hc]
      have happend : ds ++ c :: cs = (ds ++ [c]) ++ cs := by simp
      have hdigits : ∀ d ∈ ds ++ [c], d.isDigit = true := by
        intro d hd
        rcases List.mem_append.1 hd with hd | hd
        · exact hds d hd
        · rw [List.mem_singleton.1 hd]
          exact hc
      have hnext : (if current = 0 ∧ c = '0' then 0 else current + 1) ≤ (ds ++ [c]).length := by
        rw [List.length_append, List.length_singleton]
        split <;> omega
      have hrun := h (ds ++ [c]) (happend ▸ (List.prefix_append _ _).isInfix) ⟨by simp, hdigits⟩
      exact ih (happend ▸ h) hdigits hnext (Nat.le_trans hnext hrun)
    · rw [if_neg hc]
      refine Nat.max_le.2 ⟨hlimit, @ih [] 0 ?_ (by simp) (Nat.le_refl _) (Nat.zero_le _)⟩
      exact h.mono ((List.suffix_cons _ _).trans (List.suffix_append _ _)).isInfix

theorem ShortRuns.written {cs : List Char} (h : ShortRuns cs) : Numeral.written cs = .ok cs :=
  Numeral.written_eq_ok_iff.2
    ⟨@longestFrom_le cs [] 0 h (fun _ hc => nomatch hc) (Nat.le_refl _), rfl⟩

/-- A numeral without long runs is accepted by the exact domains that allow its point. -/
theorem Literal.accepts_of_shortRuns {d : Domain} (hd : d ≠ .real) {t : List Char}
    (ht : IsNumeral t) (hpoint : d = .integer → '.' ∉ t) (hruns : ShortRuns t) : Accepts d t := by
  cases d with
  | integer => exact ⟨hpoint rfl, hruns t List.infix_rfl (ht.allDigits (hpoint rfl))⟩
  | rational =>
    cases ht with
    | whole h =>
      rw [Accepts, whole_of_digits h, fraction_of_digits h]
      exact ⟨hruns t List.infix_rfl h, Nat.zero_le _⟩
    | @point ds es h h' =>
      rw [Accepts, whole_append_point h, fraction_append_point h]
      exact ⟨hruns ds (List.prefix_append _ _).isInfix h,
        hruns es ((List.suffix_cons _ _).trans (List.suffix_append _ _)).isInfix h'⟩
  | real => exact absurd rfl hd

/-! ## Scanning -/

/-- A letter of the alphabet is no gap, no line break, no digit and no point. -/
theorem letter_of_alphabet {v : Char} (hv : v ∈ alphabet) :
    Token.isGap v = false ∧ v ≠ '\n' ∧ v.isDigit = false ∧ v ≠ '.' := by
  simp only [alphabet, List.mem_cons, List.not_mem_nil, or_false] at hv
  rcases hv with rfl | rfl | rfl | rfl | rfl | rfl | rfl | rfl <;> decide

namespace Line

/-- The scanner takes the tokens `us` from `cs` and goes on at `cs'`. -/
def Scans (cs : List Char) (us : List Token) (cs' : List Char) : Prop :=
  ∀ text, tokensOf (scanFrom alphabet text cs).1 =
      us ++ tokensOf (scanFrom alphabet text cs').1 ∧
    (scanFrom alphabet text cs).2 = (scanFrom alphabet text cs').2

/-- A text that does not go on with the number before it. -/
def EndsNumber (cs : List Char) : Prop := ∀ c ∈ cs.head?, c.isDigit = false ∧ c ≠ '.'

theorem endsNumber_nil : EndsNumber [] := by simp [EndsNumber]

theorem endsNumber_cons {c : Char} {cs : List Char} (h : c.isDigit = false) (h' : c ≠ '.') :
    EndsNumber (c :: cs) := forall_head_cons ⟨h, h'⟩

theorem scanFrom_nil (symbols text : List Char) : scanFrom symbols text [] = ([], none) := by
  rw [scanFrom_eq]
  rfl

namespace Scans
variable {cs cs' cs'' : List Char} {us vs : List Token}

theorem refl (cs : List Char) : Scans cs [] cs := fun _ => ⟨rfl, rfl⟩

theorem trans (h : Scans cs us cs') (h' : Scans cs' vs cs'') : Scans cs (us ++ vs) cs'' := by
  intro text
  obtain ⟨htokens, hfault⟩ := h text
  obtain ⟨htokens', hfault'⟩ := h' text
  exact ⟨by rw [htokens, htokens', List.append_assoc], hfault.trans hfault'⟩

theorem token {t : Token} (h : Token.scan alphabet cs = .ok (t, cs')) (ht : t ≠ .finish) :
    Scans cs [t] cs' := by
  intro text
  rw [scanFrom_eq alphabet text cs, h]
  dsimp only
  rw [if_neg ht]
  exact ⟨rfl, rfl⟩

theorem gaps {gs : List Char} (hgs : ∀ c ∈ gs, Token.isGap c = true) (cs : List Char) :
    Scans (gs ++ cs) [] cs := by
  intro text
  have hscan : Token.scan alphabet (gs ++ cs) = Token.scan alphabet cs := by
    unfold Token.scan
    rw [List.dropWhile_append_of_pos hgs]
  rw [scanFrom_eq alphabet text (gs ++ cs), scanFrom_eq alphabet text cs, hscan]
  exact ⟨rfl, rfl⟩

theorem gap (cs : List Char) : Scans (' ' :: cs) [] cs :=
  gaps (List.forall_mem_singleton.2 rfl) cs

theorem letter {v : Char} (hv : v ∈ alphabet) (cs : List Char) :
    Scans (v :: cs) [.letter v] cs := by
  obtain ⟨hgap, hnewline, -⟩ := letter_of_alphabet hv
  refine token ?_ nofun
  unfold Token.scan
  rw [List.dropWhile_cons_of_neg (by rw [hgap]; decide)]
  dsimp only
  rw [if_neg hnewline, if_pos hv]

theorem mark (k : Mark) (cs : List Char) : Scans (k.char :: cs) [.mark k] cs := by
  refine token ?_ nofun
  cases k <;> rfl

/-- A line that is scanned to its end has these tokens and no fault. -/
theorem whole (h : Scans cs us []) :
    tokensOf (scan alphabet cs).lexemes = us ∧ (scan alphabet cs).fault = none := by
  obtain ⟨htokens, hfault⟩ := h cs
  rw [scanFrom_nil, tokensOf_nil, List.append_nil] at htokens
  rw [scanFrom_nil] at hfault
  exact ⟨htokens, hfault⟩

end Scans
end Line

theorem Token.takeWhile_digits {ds cs : List Char} (h : ∀ c ∈ ds, c.isDigit = true)
    (hcs : ∀ c ∈ cs.head?, c.isDigit = false) : (ds ++ cs).takeWhile Char.isDigit = ds := by
  rw [List.takeWhile_append_of_pos h]
  cases cs with
  | nil => simp
  | cons c cs => rw [List.takeWhile_cons_of_neg (by rw [hcs c rfl]; decide), List.append_nil]

theorem Token.dropWhile_digits {ds cs : List Char} (h : ∀ c ∈ ds, c.isDigit = true)
    (hcs : ∀ c ∈ cs.head?, c.isDigit = false) : (ds ++ cs).dropWhile Char.isDigit = cs := by
  rw [List.dropWhile_append_of_pos h]
  cases cs with
  | nil => rfl
  | cons c cs => rw [List.dropWhile_cons_of_neg (by rw [hcs c rfl]; decide)]

/-- The scanner takes the whole numeral and no more. -/
theorem Token.scanNumber_append_numeral {ds cs : List Char} (h : IsNumeral ds)
    (hcs : Line.EndsNumber cs) : scanNumber (ds ++ cs) = (ds, cs) := by
  have hdigit : ∀ c ∈ cs.head?, c.isDigit = false := fun c hc => (hcs c hc).1
  cases h with
  | whole h =>
    unfold scanNumber
    dsimp only
    rw [takeWhile_digits h.2 hdigit, dropWhile_digits h.2 hdigit]
    split
    · exact absurd rfl (hcs '.' rfl).2
    · rfl
  | @point ds es h h' =>
    have hpoint : ∀ c ∈ ('.' :: (es ++ cs)).head?, c.isDigit = false := forall_head_cons rfl
    have htake := takeWhile_digits h'.2 hdigit
    have hdrop := dropWhile_digits h'.2 hdigit
    obtain ⟨e, es, rfl⟩ := List.exists_cons_of_ne_nil h'.1
    unfold scanNumber
    dsimp only
    rw [List.append_assoc, List.cons_append, takeWhile_digits h.2 hpoint,
      dropWhile_digits h.2 hpoint]
    rw [List.cons_append] at htake hdrop ⊢
    show (if e.isDigit = true then _ else _) = _
    rw [if_pos (h'.2 e List.mem_cons_self), htake, hdrop]

theorem Line.Scans.number {ds cs : List Char} (h : IsNumeral ds) (hcs : EndsNumber cs) :
    Scans (ds ++ cs) [.number ds] cs := by
  have hnumber := Token.scanNumber_append_numeral h hcs
  obtain ⟨c, ds', rfl, hc⟩ : ∃ c ds', ds = c :: ds' ∧ c.isDigit = true := by
    cases h with
    | whole h =>
      obtain ⟨c, ds', rfl⟩ := List.exists_cons_of_ne_nil h.1
      exact ⟨c, ds', rfl, h.2 c List.mem_cons_self⟩
    | point h _ =>
      obtain ⟨c, ds', rfl⟩ := List.exists_cons_of_ne_nil h.1
      exact ⟨c, _, rfl, h.2 c List.mem_cons_self⟩
  have hgap : Token.isGap c = false := by
    simp only [Token.isGap, Bool.or_eq_false_iff, beq_eq_false_iff_ne]
    exact ⟨⟨Literal.ne_of_isDigit hc (by decide), Literal.ne_of_isDigit hc (by decide)⟩,
      Literal.ne_of_isDigit hc (by decide)⟩
  have hletter : c ∉ alphabet := by
    intro hmem
    rw [(letter_of_alphabet hmem).2.2.1] at hc
    cases hc
  refine token ?_ nofun
  unfold Token.scan
  rw [List.cons_append] at hnumber ⊢
  rw [List.dropWhile_cons_of_neg (by rw [hgap]; decide)]
  dsimp only
  rw [if_neg (Literal.ne_of_isDigit hc (by decide)), if_neg hletter, if_pos hc, hnumber]

/-! ## Coefficients -/

namespace Domain
variable {d : Domain} (h : d ≠ .real)
include h

theorem isNegative_iff {c : d.Carrier} : Coefficient.isNegative c = true ↔ toRat d c < 0 := by
  cases d with
  | integer => exact decide_eq_true_iff.trans Int.cast_lt_zero.symm
  | rational => exact decide_eq_true_iff
  | real => exact absurd rfl h

theorem toRat_absolute (c : d.Carrier) : toRat d (Coefficient.absolute c) = |toRat d c| := by
  unfold Coefficient.absolute
  by_cases hneg : Coefficient.isNegative c = true
  · rw [if_pos hneg, toRat_negate h, abs_of_neg ((isNegative_iff h).1 hneg)]
  · rw [if_neg hneg]
    rw [isNegative_iff h, not_lt] at hneg
    rw [abs_of_nonneg hneg]

theorem isOne_iff {c : d.Carrier} : Coefficient.isOne c = true ↔ c = 1 := by
  cases d with
  | integer => exact beq_iff_eq
  | rational => exact beq_iff_eq
  | real => exact absurd rfl h

/-- A decimal magnitude is written as a number token that denotes it. -/
theorem text_of_terminates {c : d.Carrier} (hc : 0 ≤ toRat d c)
    (ht : Rational.Terminates (toRat d c)) :
    IsNumeral (Coefficient.text c) ∧ Literal.value (Coefficient.text c) = toRat d c ∧
      (d = .integer → '.' ∉ Coefficient.text c) := by
  cases d with
  | integer =>
    have hnonneg : 0 ≤ c := Int.cast_nonneg_iff.1 hc
    have htext : Coefficient.text c = Nat.toDigits 10 c.natAbs := if_neg (not_lt.2 hnonneg)
    have hdigits := Literal.allDigits_toDigits c.natAbs
    rw [htext]
    refine ⟨.whole hdigits, ?_, fun _ => Literal.not_mem_point hdigits⟩
    rw [Literal.value_of_digits hdigits, Literal.natural_toDigits, ← Int.cast_natCast,
      Int.natAbs_of_nonneg hnonneg]
    rfl
  | rational =>
    obtain ⟨hnumeral, hvalue⟩ := Rational.display_of_terminates hc ht
    exact ⟨hnumeral, hvalue, nofun⟩
  | real => exact absurd rfl h

/-- Any other magnitude is written as a quotient. -/
theorem text_of_not_terminates {c : d.Carrier} (hc : 0 ≤ toRat d c)
    (ht : ¬ Rational.Terminates (toRat d c)) :
    ∃ ds es, AllDigits ds ∧ Coefficient.text c = ds ++ '/' :: es := by
  cases d with
  | integer => exact absurd (Rational.terminates_intCast c) ht
  | rational =>
    exact ⟨_, _, Literal.allDigits_toDigits _, Rational.display_of_not_terminates hc ht⟩
  | real => exact absurd rfl h

end Domain

/-! ## Variables -/

variable {R : PolyRing}

/-- The tokens of a variable with its power. -/
def powerTokens (f : Char × Nat) : List Token :=
  if f.2 = 0 then []
  else if f.2 = 1 then [.letter f.1]
  else [.letter f.1, .mark .caret, .number (Nat.toDigits 10 f.2)]

/-- The slots of the variables that occur, with their powers. -/
def factorsOf (R : PolyRing) (fs : List (Char × Nat)) : List (Nat × Nat) :=
  fs.filterMap fun f => if f.2 = 0 then none else (R.slot? f.1).map (·, f.2)

/-- The text of variables with their powers. -/
def powersText (fs : List (Char × Nat)) : List Char :=
  fs.flatMap fun f => Monomial.powerText f.1 f.2

theorem powersText_cons (f : Char × Nat) (fs : List (Char × Nat)) :
    powersText (f :: fs) = Monomial.powerText f.1 f.2 ++ powersText fs := List.flatMap_cons

theorem endsNumber_powersText {fs : List (Char × Nat)} (hfs : ∀ f ∈ fs, f.1 ∈ R.vars)
    {cs : List Char} (hcs : Line.EndsNumber cs) : Line.EndsNumber (powersText fs ++ cs) := by
  induction fs with
  | nil => exact hcs
  | cons f fs ih =>
    obtain ⟨-, -, hdigit, hpoint⟩ :=
      letter_of_alphabet (R.mem_alphabet _ (hfs f List.mem_cons_self))
    rw [powersText_cons, Monomial.powerText, List.append_assoc]
    split
    · exact ih fun g hg => hfs g (List.mem_cons_of_mem _ hg)
    · split <;> exact Line.endsNumber_cons hdigit hpoint

theorem Line.scans_powerText {v : Char} (hv : v ∈ R.vars) (e : Nat) {cs : List Char}
    (hcs : EndsNumber cs) : Scans (Monomial.powerText v e ++ cs) (powerTokens (v, e)) cs := by
  have hletter := R.mem_alphabet v hv
  unfold Monomial.powerText powerTokens
  dsimp only
  split
  · exact .refl cs
  · split
    · exact .letter hletter cs
    · have hnumber := Scans.number (.whole (Literal.allDigits_toDigits e)) hcs
      exact (Scans.letter hletter _).trans ((Scans.mark .caret _).trans hnumber)

theorem Line.scans_powersText {fs : List (Char × Nat)} (hfs : ∀ f ∈ fs, f.1 ∈ R.vars)
    {cs : List Char} (hcs : EndsNumber cs) :
    Scans (powersText fs ++ cs) (fs.flatMap powerTokens) cs := by
  induction fs with
  | nil => exact .refl cs
  | cons f fs ih =>
    have htail : ∀ g ∈ fs, g.1 ∈ R.vars := fun g hg => hfs g (List.mem_cons_of_mem _ hg)
    rw [powersText_cons, List.append_assoc, List.flatMap_cons]
    exact (scans_powerText (hfs f List.mem_cons_self) f.2 (endsNumber_powersText htail hcs)).trans
      (ih htail)

namespace Phrase

theorem letters_powerTokens {fs : List (Char × Nat)} (hfs : ∀ f ∈ fs, f.1 ∈ R.vars)
    (hruns : ShortRuns (powersText fs)) (ts : List Token) :
    Letters R (fs.flatMap powerTokens ++ ts) (factorsOf R fs) ts := by
  induction fs with
  | nil => exact .nil ts
  | cons f fs ih =>
    obtain ⟨v, e⟩ := f
    rw [powersText_cons] at hruns
    have hrest := ih (fun g hg => hfs g (List.mem_cons_of_mem _ hg))
      (hruns.mono (List.suffix_append _ _).isInfix)
    obtain ⟨slot, hslot⟩ := R.exists_slot_iff.2 (hfs (v, e) List.mem_cons_self)
    rw [List.flatMap_cons, List.append_assoc]
    by_cases hzero : e = 0
    · have htokens : powerTokens (v, e) = [] := if_pos hzero
      have hfactors : factorsOf R ((v, e) :: fs) = factorsOf R fs :=
        List.filterMap_cons_none (if_pos hzero)
      rw [htokens, hfactors]
      exact hrest
    · have hfactors : factorsOf R ((v, e) :: fs) = (slot, e) :: factorsOf R fs :=
        List.filterMap_cons_some (by rw [if_neg hzero, hslot]; rfl)
      rw [hfactors, powerTokens]
      by_cases hone : e = 1
      · rw [if_neg hzero, if_pos hone]
        subst hone
        exact .plain hslot hrest
      · have hdigits := Literal.allDigits_toDigits e
        have hlength : (Nat.toDigits 10 e).length ≤ digitLimit := by
          refine hruns _ ?_ hdigits
          rw [Monomial.powerText, if_neg hzero, if_neg hone]
          exact ⟨[v, '^'], powersText fs, by simp⟩
        rw [if_neg hzero, if_neg hone]
        have hraised := Letters.raised hslot ⟨Literal.not_mem_point hdigits, hlength⟩ hrest
        rwa [Literal.natural_toDigits] at hraised

/-- The last power named for a slot, when all powers named for it agree. -/
theorem lastPower_eq {fs : List (Nat × Nat)} {i e : Nat} (hall : ∀ f ∈ fs, f.1 = i → f.2 = e)
    (hmem : e ≠ 0 → (i, e) ∈ fs) : lastPower fs i = e := by
  unfold lastPower
  cases hl : fs.reverse.lookup i with
  | none =>
    by_contra hne
    rw [List.lookup_eq_none_iff] at hl
    simpa using hl (i, e) (List.mem_reverse.2 (hmem (Ne.symm hne)))
  | some n =>
    obtain ⟨l₁, l₂, heq, -⟩ := List.lookup_eq_some_iff.1 hl
    have hn : (i, n) ∈ fs := by
      rw [← List.mem_reverse, heq]
      exact List.mem_append_right _ List.mem_cons_self
    exact hall _ hn rfl

theorem slot_getElem {i : Nat} (hi : i < R.vars.length) : R.slot? R.vars[i] = some i := by
  rw [PolyRing.slot?, List.idxOf?_eq_some_iff]
  refine ⟨hi, rfl, fun j hj heq => ?_⟩
  exact absurd (R.nodup.getElem_inj_iff.1 heq) (Nat.ne_of_lt hj)

/-- The factors are the slots whose power is not zero. -/
theorem mem_factorsOf {u : Powers} (hu : u.length = R.arity) {f : Nat × Nat} :
    f ∈ factorsOf R (R.vars.zip u) ↔ ∃ hi : f.1 < u.length, u[f.1] = f.2 ∧ f.2 ≠ 0 := by
  obtain ⟨i, e⟩ := f
  rw [factorsOf, List.mem_filterMap]
  constructor
  · intro hfactor
    obtain ⟨⟨v, e'⟩, hzip, hsome⟩ := hfactor
    obtain ⟨j, hj, heq⟩ := List.mem_iff_getElem.1 hzip
    rw [List.getElem_zip, Prod.mk.injEq] at heq
    obtain ⟨rfl, rfl⟩ := heq
    rw [List.length_zip] at hj
    rw [slot_getElem (by omega)] at hsome
    split at hsome
    · cases hsome
    · rename_i hne
      simp only [Option.map_some, Option.some.injEq, Prod.mk.injEq] at hsome
      obtain ⟨rfl, rfl⟩ := hsome
      exact ⟨by omega, rfl, hne⟩
  · intro hslot
    obtain ⟨hi, hpower, hne⟩ := hslot
    dsimp only at hi hpower hne
    subst hpower
    have hi' : i < R.vars.length := Nat.lt_of_lt_of_eq hi hu
    refine ⟨(R.vars[i], u[i]), ?_, ?_⟩
    · exact List.mem_iff_getElem.2 ⟨i, by rw [List.length_zip]; omega, List.getElem_zip⟩
    · rw [if_neg hne, slot_getElem hi']
      rfl

/-- The powers that were written are the powers that are read. -/
theorem powersOf_factorsOf {u : Powers} (hu : u.length = R.arity) :
    powersOf R (factorsOf R (R.vars.zip u)) = u := by
  refine List.ext_getElem (by simp [powersOf, hu]) fun i hi hi' => ?_
  simp only [powersOf, List.getElem_map, List.getElem_range]
  refine lastPower_eq (fun f hf hfi => ?_) fun hne => (mem_factorsOf hu).2 ⟨hi', rfl, hne⟩
  obtain ⟨hlt, hpower, -⟩ := (mem_factorsOf hu).1 hf
  rw [← hpower]
  simp only [hfi]

end Phrase

/-! ## Magnitudes -/

namespace Monomial
variable {m : Monomial R} (h : R.domain ≠ .real)

/-- The term without its sign. -/
def magnitude (m : Monomial R) : Monomial R := ⟨Coefficient.absolute m.coeff, m.powers⟩

/-- The coefficient of the term is a decimal. -/
def Terminates (m : Monomial R) : Prop := Rational.Terminates (R.domain.toRat m.coeff)

theorem variablesText_eq (m : Monomial R) :
    m.variablesText = powersText (R.vars.zip m.powers) := rfl

theorem mem_vars_of_mem_zip {f : Char × Nat} (hf : f ∈ R.vars.zip m.powers) : f.1 ∈ R.vars :=
  (List.of_mem_zip hf).1

theorem factorsOf_ne_nil {fs : List (Char × Nat)} (hfs : ∀ f ∈ fs, f.1 ∈ R.vars)
    (hne : powersText fs ≠ []) : factorsOf R fs ≠ [] := by
  intro hnil
  refine hne (List.flatMap_eq_nil_iff.2 fun f hf => ?_)
  have hnone := List.filterMap_eq_nil_iff.1 hnil f hf
  by_cases hzero : f.2 = 0
  · exact if_pos hzero
  · obtain ⟨slot, hslot⟩ := R.exists_slot_iff.2 (hfs f hf)
    rw [if_neg hzero, hslot] at hnone
    cases hnone

include h

theorem terminates_magnitude :
    Rational.Terminates (R.domain.toRat m.magnitude.coeff) ↔ m.Terminates := by
  rw [magnitude, Domain.toRat_absolute h, Rational.terminates_abs]
  rfl

theorem magnitude_nonneg (m : Monomial R) : 0 ≤ R.domain.toRat m.magnitude.coeff := by
  rw [magnitude, Domain.toRat_absolute h]
  exact abs_nonneg _

/-- The tokens of a decimal magnitude with its variables are read back, whatever follows them. -/
theorem scans_magnitude (hfits : m.Fits) (hm : m.Terminates) (hruns : ShortRuns m.magnitudeText) :
    ∃ us, (∀ cs, Line.EndsNumber cs → Line.Scans (m.magnitudeText ++ cs) us cs) ∧
      ∀ ts, Unsigned R (us ++ ts) m.magnitude ts := by
  have hvars : ∀ f ∈ R.vars.zip m.powers, f.1 ∈ R.vars := fun f hf => mem_vars_of_mem_zip hf
  have hpowers : powersOf R (factorsOf R (R.vars.zip m.powers)) = m.powers :=
    powersOf_factorsOf hfits
  unfold magnitudeText at hruns ⊢
  dsimp only at hruns ⊢
  by_cases hone : m.variablesText ≠ [] ∧ Coefficient.isOne (Coefficient.absolute m.coeff) = true
  · rw [if_pos hone, variablesText_eq] at hruns
    rw [if_pos hone, variablesText_eq]
    rw [variablesText_eq] at hone
    refine ⟨_, fun cs hcs => Line.scans_powersText hvars hcs, fun ts => ?_⟩
    have hread := Unsigned.letters (factorsOf_ne_nil hvars hone.1)
      (letters_powerTokens hvars hruns ts)
    rwa [hpowers, ← (Domain.isOne_iff h).1 hone.2] at hread
  · rw [if_neg hone, variablesText_eq] at hruns
    rw [if_neg hone, variablesText_eq]
    obtain ⟨hnumeral, hvalue, hpoint⟩ :=
      Domain.text_of_terminates h (magnitude_nonneg h m) ((terminates_magnitude h).2 hm)
    have haccepts : Literal.Accepts R.domain (Coefficient.text m.magnitude.coeff) :=
      Literal.accepts_of_shortRuns h hnumeral hpoint
        (hruns.mono (List.prefix_append _ _).isInfix)
    have hnumber : Literal.number R.domain (Coefficient.text m.magnitude.coeff) =
        m.magnitude.coeff := by
      rw [← Domain.toRat_inj h, Literal.toRat_number h hnumeral haccepts, hvalue]
    have hruns' : ShortRuns (powersText (R.vars.zip m.powers)) :=
      hruns.mono (List.suffix_append _ _).isInfix
    refine ⟨.number (Coefficient.text m.magnitude.coeff) ::
      (R.vars.zip m.powers).flatMap powerTokens, fun cs hcs => ?_, fun ts => ?_⟩
    · rw [List.append_assoc]
      exact (Line.Scans.number hnumeral (endsNumber_powersText hvars hcs)).trans
        (Line.scans_powersText hvars hcs)
    · have hread := Unsigned.number haccepts (letters_powerTokens hvars hruns' ts)
      rwa [hpowers, hnumber] at hread

/-- The text of any other magnitude starts with a number, which is a monomial of its own, and a
slash. -/
theorem scans_quotient (hm : ¬ m.Terminates) (hruns : ShortRuns m.magnitudeText) :
    ∃ ds cs', (∀ cs, Line.Scans (m.magnitudeText ++ cs) [.number ds, .mark .slash] (cs' ++ cs)) ∧
      ∃ n, ∀ ts, Unsigned R (.number ds :: ts) n ts := by
  have hnot : ¬ Rational.Terminates (R.domain.toRat m.magnitude.coeff) :=
    fun hterminates => hm ((terminates_magnitude h).1 hterminates)
  obtain ⟨ds, es, hds, htext⟩ := Domain.text_of_not_terminates h (magnitude_nonneg h m) hnot
  have hone : ¬ (m.variablesText ≠ [] ∧
      Coefficient.isOne (Coefficient.absolute m.coeff) = true) := by
    intro hhidden
    obtain ⟨-, hone⟩ := hhidden
    rw [magnitude, (Domain.isOne_iff h).1 hone, Domain.toRat_one h] at hnot
    exact hnot (Rational.terminates_intCast 1)
  have hmagnitude : m.magnitudeText = ds ++ '/' :: (es ++ m.variablesText) := by
    unfold magnitudeText
    rw [if_neg hone, ← List.cons_append, ← List.append_assoc, ← htext]
    rfl
  rw [hmagnitude] at hruns ⊢
  have haccepts : Literal.Accepts R.domain ds :=
    Literal.accepts_of_shortRuns h (.whole hds) (fun _ => Literal.not_mem_point hds)
      (hruns.mono (List.prefix_append _ _).isInfix)
  refine ⟨ds, es ++ m.variablesText, fun cs => ?_, _, fun ts => .number haccepts (.nil ts)⟩
  rw [List.append_assoc, List.cons_append]
  exact (Line.Scans.number (.whole hds) (Line.endsNumber_cons (by decide) (by decide))).trans
    (Line.Scans.mark .slash _)

end Monomial
end Multipoly
