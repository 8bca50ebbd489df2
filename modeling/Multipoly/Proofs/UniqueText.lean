import Multipoly.Proofs.DecimalCoefficients
import Multipoly.Proofs.Identity

/-!
# Unique texts

Over an exact domain the text of a polynomial determines its non-zero terms, although the text
drops magnitudes and exponents that are one, puts nothing between variables, and mixes decimals
with quotients. A text is cut where one class of characters ends and another begins: spaces end a
term, a letter ends a coefficient, the next variable ends an exponent. Each piece then determines
what it was written for.

Results:
* `append_inj_of_class`: a text is cut in one way only;
* `powersText_zip_inj`: variables with their powers determine the powers;
* `Domain.text_inj`: the text of a magnitude determines it, be it a decimal or a quotient;
* `Monomial.eq_of_magnitudeText_eq`: sign and magnitude determine a term;
* `Poly.text_eq_iff_same`: polynomials have equal texts exactly when they are equal.
-/
namespace Multipoly

/-- A text whose head has a property and whose rest does not begin with it is cut in one way. -/
theorem append_inj_of_class {P : Char → Prop} {as bs cs ds : List Char} (has : ∀ c ∈ as, P c)
    (hbs : ∀ c ∈ bs, P c) (hcs : ∀ c ∈ cs.head?, ¬ P c) (hds : ∀ c ∈ ds.head?, ¬ P c)
    (h : as ++ cs = bs ++ ds) : as = bs ∧ cs = ds := by
  induction as generalizing bs with
  | nil =>
    cases bs with
    | nil => exact ⟨rfl, h⟩
    | cons b bs =>
      rw [List.nil_append] at h
      subst h
      exact absurd (hbs b List.mem_cons_self) (hcs b rfl)
  | cons a as ih =>
    cases bs with
    | nil =>
      rw [List.nil_append] at h
      subst h
      exact absurd (has a List.mem_cons_self) (hds a rfl)
    | cons b bs =>
      obtain ⟨rfl, hrest⟩ := List.cons.inj h
      obtain ⟨rfl, hend⟩ := ih (fun c hc => has c (List.mem_cons_of_mem _ hc))
        (fun c hc => hbs c (List.mem_cons_of_mem _ hc)) hrest
      exact ⟨rfl, hend⟩

/-! ## Powers -/

theorem toDigits_inj {m n : Nat} (h : Nat.toDigits 10 m = Nat.toDigits 10 n) : m = n := by
  rw [← Literal.natural_toDigits m, h, Literal.natural_toDigits]

/-- Digits that no digit follows determine their number. -/
theorem toDigits_append_inj {m n : Nat} {cs ds : List Char}
    (hcs : ∀ c ∈ cs.head?, c.isDigit = false) (hds : ∀ c ∈ ds.head?, c.isDigit = false)
    (h : Nat.toDigits 10 m ++ cs = Nat.toDigits 10 n ++ ds) : m = n ∧ cs = ds := by
  obtain ⟨hdigits, hrest⟩ := append_inj_of_class (P := fun c => c.isDigit = true)
    (Literal.allDigits_toDigits m).2 (Literal.allDigits_toDigits n).2
    (fun c hc => by simp [hcs c hc]) (fun c hc => by simp [hds c hc]) h
  exact ⟨toDigits_inj hdigits, hrest⟩

/-- The text of factors begins with one of their variables. -/
theorem head_powersText {fs : List (Char × Nat)} :
    ∀ c ∈ (powersText fs).head?, c ∈ fs.map Prod.fst := by
  induction fs with
  | nil => exact fun c hc => nomatch hc
  | cons f fs ih =>
    rw [powersText_cons, Monomial.powerText, List.map_cons]
    split
    · exact fun c hc => List.mem_cons_of_mem _ (ih c hc)
    · split <;> exact forall_head_cons List.mem_cons_self

/-- What is written behind a variable that occurs with the power `e`. -/
def exponentText (e : Nat) : List Char := if e = 1 then [] else '^' :: Nat.toDigits 10 e

theorem powerText_of_ne_zero (v : Char) {e : Nat} (he : e ≠ 0) :
    Monomial.powerText v e = v :: exponentText e := by
  unfold Monomial.powerText exponentText
  rw [if_neg he]
  split
  · rfl
  · rfl

/-- An exponent is cut from what begins with a letter: a letter is no caret and no digit. -/
theorem exponentText_append_inj {d e : Nat} {cs ds : List Char}
    (hcs : ∀ c ∈ cs.head?, c ∈ alphabet) (hds : ∀ c ∈ ds.head?, c ∈ alphabet)
    (h : exponentText d ++ cs = exponentText e ++ ds) : d = e ∧ cs = ds := by
  have hcaret : ∀ {as bs : List Char}, (∀ c ∈ as.head?, c ∈ alphabet) → as ≠ '^' :: bs := by
    rintro _ bs has rfl
    exact absurd (has '^' rfl) (by decide)
  have hdigit : ∀ {as : List Char}, (∀ c ∈ as.head?, c ∈ alphabet) →
      ∀ c ∈ as.head?, c.isDigit = false := fun has c hc => (letter_of_alphabet (has c hc)).2.2.1
  unfold exponentText at h
  by_cases hd : d = 1 <;> by_cases he : e = 1
  · rw [if_pos hd, if_pos he] at h
    exact ⟨hd.trans he.symm, h⟩
  · rw [if_pos hd, if_neg he] at h
    exact absurd h (hcaret hcs)
  · rw [if_neg hd, if_pos he] at h
    exact absurd h.symm (hcaret hds)
  · rw [if_neg hd, if_neg he] at h
    exact toDigits_append_inj (hdigit hcs) (hdigit hds) (List.cons.inj h).2

/-- A variable with its power is cut from what begins with another letter. -/
theorem powerText_append_inj {v : Char} {d e : Nat} {cs ds : List Char}
    (hcs : ∀ c ∈ cs.head?, c ∈ alphabet ∧ c ≠ v) (hds : ∀ c ∈ ds.head?, c ∈ alphabet ∧ c ≠ v)
    (h : Monomial.powerText v d ++ cs = Monomial.powerText v e ++ ds) : d = e ∧ cs = ds := by
  have habsent : ∀ {as bs : List Char}, (∀ c ∈ as.head?, c ∈ alphabet ∧ c ≠ v) →
      as ≠ v :: bs := by
    rintro _ bs has rfl
    exact (has v rfl).2 rfl
  by_cases hd : d = 0 <;> by_cases he : e = 0
  · rw [hd, he] at h
    exact ⟨hd.trans he.symm, h⟩
  · rw [hd, powerText_of_ne_zero v he] at h
    exact absurd h (habsent hcs)
  · rw [he, powerText_of_ne_zero v hd] at h
    exact absurd h.symm (habsent hds)
  · rw [powerText_of_ne_zero v hd, powerText_of_ne_zero v he] at h
    exact exponentText_append_inj (fun c hc => (hcs c hc).1) (fun c hc => (hds c hc).1)
      (List.cons.inj h).2

/-- Variables that were written with their powers determine the powers. -/
theorem powersText_zip_inj {vs : List Char} (hnodup : vs.Nodup) (hvs : ∀ v ∈ vs, v ∈ alphabet)
    {u w : Powers} (hu : u.length = vs.length) (hw : w.length = vs.length)
    (h : powersText (vs.zip u) = powersText (vs.zip w)) : u = w := by
  induction vs generalizing u w with
  | nil => rw [List.eq_nil_of_length_eq_zero hu, List.eq_nil_of_length_eq_zero hw]
  | cons v vs ih =>
    obtain ⟨d, u, rfl⟩ := List.exists_cons_of_length_eq_add_one hu
    obtain ⟨e, w, rfl⟩ := List.exists_cons_of_length_eq_add_one hw
    obtain ⟨hv, hnodup⟩ := List.nodup_cons.1 hnodup
    have hhead : ∀ (x : Powers), ∀ c ∈ (powersText (vs.zip x)).head?, c ∈ alphabet ∧ c ≠ v := by
      intro x c hc
      obtain ⟨f, hf, rfl⟩ := List.mem_map.1 (head_powersText c hc)
      have hmem : f.1 ∈ vs := (List.of_mem_zip hf).1
      exact ⟨hvs _ (List.mem_cons_of_mem _ hmem), fun heq => hv (heq ▸ hmem)⟩
    rw [List.zip_cons_cons, List.zip_cons_cons, powersText_cons, powersText_cons] at h
    obtain ⟨rfl, hrest⟩ := powerText_append_inj (hhead u) (hhead w) h
    rw [ih hnodup (fun c hc => hvs c (List.mem_cons_of_mem _ hc)) (Nat.succ.inj hu)
      (Nat.succ.inj hw) hrest]

/-! ## Coefficients -/

/-- Decimals are told from quotients by the slash, and both denote what they were written for. -/
theorem Rational.display_inj {a b : ℚ} (ha : 0 ≤ a) (hb : 0 ≤ b)
    (h : Rational.display a = Rational.display b) : a = b := by
  have hslash : ∀ {c d : ℚ}, 0 ≤ c → 0 ≤ d → Terminates c → ¬ Terminates d →
      display c ≠ display d := by
    intro c d hc hd htc htd heq
    refine (display_of_terminates hc htc).1.slash_notMem ?_
    rw [heq, display_of_not_terminates hd htd]
    exact List.mem_append_right _ List.mem_cons_self
  by_cases hta : Terminates a <;> by_cases htb : Terminates b
  · rw [← (display_of_terminates ha hta).2, h, (display_of_terminates hb htb).2]
  · exact absurd h (hslash ha hb hta htb)
  · exact absurd h.symm (hslash hb ha htb hta)
  · rw [display_of_not_terminates ha hta, display_of_not_terminates hb htb] at h
    obtain ⟨hnum, hden⟩ := toDigits_append_inj (forall_head_cons rfl) (forall_head_cons rfl) h
    refine Rat.ext ?_ (toDigits_inj (List.cons.inj hden).2)
    rw [← Int.natAbs_of_nonneg (Rat.num_nonneg.2 ha), hnum,
      Int.natAbs_of_nonneg (Rat.num_nonneg.2 hb)]

namespace Domain
variable {d : Domain} (h : d ≠ .real)
include h

/-- The characters of a magnitude. -/
theorem mem_text {c : d.Carrier} (hc : 0 ≤ toRat d c) {a : Char}
    (ha : a ∈ Coefficient.text c) : a.isDigit = true ∨ a = '.' ∨ a = '/' := by
  by_cases ht : Rational.Terminates (toRat d c)
  · rcases (text_of_terminates h hc ht).1.isDigit_or_point a ha with hdigit | hpoint
    · exact .inl hdigit
    · exact .inr (.inl hpoint)
  · cases d with
    | integer => exact absurd (Rational.terminates_intCast c) ht
    | rational =>
      have htext : Coefficient.text c = _ := Rational.display_of_not_terminates hc ht
      rw [htext] at ha
      rcases List.mem_append.1 ha with ha | ha
      · exact .inl ((Literal.allDigits_toDigits _).2 a ha)
      · rcases List.mem_cons.1 ha with hslash | ha
        · exact .inr (.inr hslash)
        · exact .inl ((Literal.allDigits_toDigits _).2 a ha)
    | real => exact absurd rfl h

theorem text_inj {a b : d.Carrier} (ha : 0 ≤ toRat d a) (hb : 0 ≤ toRat d b)
    (heq : Coefficient.text a = Coefficient.text b) : a = b := by
  cases d with
  | integer =>
    have hdecimal : ∀ c : Int, 0 ≤ toRat .integer c →
        Literal.value (Coefficient.text (K := Domain.Carrier .integer) c) = toRat .integer c :=
      fun c hc => (text_of_terminates h hc (Rational.terminates_intCast c)).2.1
    rw [← toRat_inj h, ← hdecimal a ha, heq, hdecimal b hb]
  | rational => exact Rational.display_inj ha hb heq
  | real => exact absurd rfl h

/-- Sign and magnitude determine a coefficient. -/
theorem eq_of_absolute_eq {a b : d.Carrier}
    (hsign : Coefficient.isNegative a = Coefficient.isNegative b)
    (habs : Coefficient.absolute a = Coefficient.absolute b) : a = b := by
  rw [← toRat_inj h] at habs ⊢
  rw [toRat_absolute h, toRat_absolute h] at habs
  cases hb : Coefficient.isNegative b with
  | true =>
    have ha := (isNegative_iff h).1 (hsign.trans hb)
    rw [abs_of_neg ha, abs_of_neg ((isNegative_iff h).1 hb)] at habs
    exact neg_inj.1 habs
  | false =>
    have hnonneg : ∀ {c : d.Carrier}, Coefficient.isNegative c = false → 0 ≤ toRat d c :=
      fun hc => not_lt.1 fun hlt => Bool.false_ne_true (hc.symm.trans ((isNegative_iff h).2 hlt))
    rwa [abs_of_nonneg (hnonneg (hsign.trans hb)), abs_of_nonneg (hnonneg hb)] at habs

end Domain

/-! ## Terms -/

variable {R : PolyRing}

namespace Monomial
variable {m n : Monomial R}

/-- What is written before the variables: nothing if it is the hidden one. -/
def coefficientText (m : Monomial R) : List Char :=
  if m.variablesText ≠ [] ∧ Coefficient.isOne (Coefficient.absolute m.coeff) then []
  else Coefficient.text (Coefficient.absolute m.coeff)

theorem magnitudeText_eq (m : Monomial R) :
    m.magnitudeText = m.coefficientText ++ m.variablesText := by
  unfold magnitudeText coefficientText
  dsimp only
  split
  · rw [List.nil_append]
  · rfl

theorem head_variablesText : ∀ c ∈ m.variablesText.head?, c ∈ alphabet := by
  intro c hc
  obtain ⟨f, hf, rfl⟩ := List.mem_map.1 (head_powersText c hc)
  exact R.mem_alphabet _ (mem_vars_of_mem_zip hf)

variable (h : R.domain ≠ .real)
include h

theorem mem_coefficientText {c : Char} (hc : c ∈ m.coefficientText) :
    c.isDigit = true ∨ c = '.' ∨ c = '/' := by
  unfold coefficientText at hc
  split at hc
  · cases hc
  · exact Domain.mem_text h (magnitude_nonneg h m) hc

theorem notMem_alphabet_of_mem_coefficientText : ∀ c ∈ m.coefficientText, ¬ c ∈ alphabet := by
  intro c hc hletter
  obtain ⟨-, -, hdigit, hpoint⟩ := letter_of_alphabet hletter
  rcases mem_coefficientText h hc with hc | hc | rfl
  · exact Bool.false_ne_true (hdigit.symm.trans hc)
  · exact hpoint hc
  · exact absurd hletter (by decide)

/-- The empty text stands for the magnitude one only. -/
theorem absolute_eq_of_coefficientText_eq (htext : m.coefficientText = n.coefficientText) :
    Coefficient.absolute m.coeff = Coefficient.absolute n.coeff := by
  have hne : ∀ k : Monomial R, Coefficient.text (Coefficient.absolute k.coeff) ≠ [] :=
    fun k => Domain.text_ne_nil h (magnitude_nonneg h k)
  unfold coefficientText at htext
  split at htext
  · rename_i hm
    split at htext
    · rename_i hn
      rw [(Domain.isOne_iff h).1 hm.2, (Domain.isOne_iff h).1 hn.2]
    · exact absurd htext.symm (hne n)
  · split at htext
    · exact absurd htext (hne m)
    · exact Domain.text_inj h (magnitude_nonneg h m) (magnitude_nonneg h n) htext

/-- Sign and magnitude determine a term. -/
theorem eq_of_magnitudeText_eq (hm : m.Fits) (hn : n.Fits) (hsign : m.isNegative = n.isNegative)
    (htext : m.magnitudeText = n.magnitudeText) : m = n := by
  rw [magnitudeText_eq, magnitudeText_eq] at htext
  obtain ⟨hcoeff, hvars⟩ := append_inj_of_class (P := (· ∉ alphabet))
    (notMem_alphabet_of_mem_coefficientText h) (notMem_alphabet_of_mem_coefficientText h)
    (fun c hc => not_not.2 (head_variablesText c hc))
    (fun c hc => not_not.2 (head_variablesText c hc)) htext
  have hpowers : m.powers = n.powers := powersText_zip_inj R.nodup R.mem_alphabet hm hn hvars
  have hcoeff : m.coeff = n.coeff :=
    Domain.eq_of_absolute_eq h hsign (absolute_eq_of_coefficientText_eq h hcoeff)
  cases m
  cases n
  exact congrArg₂ mk hcoeff hpowers

/-- A magnitude is written without the characters that stand between terms. -/
theorem notMem_magnitudeText {c : Char} (hc : c = ' ' ∨ c = '-') : c ∉ m.magnitudeText := by
  have hletter : c ∉ alphabet := by rcases hc with rfl | rfl <;> decide
  have hdigit : c.isDigit = false := by rcases hc with rfl | rfl <;> rfl
  have hmark : c ≠ '.' ∧ c ≠ '/' ∧ c ≠ '^' := by rcases hc with rfl | rfl <;> decide
  rw [magnitudeText_eq, List.mem_append, not_or]
  constructor
  · intro hmem
    rcases mem_coefficientText h hmem with hc | hc | hc
    · exact Bool.false_ne_true (hdigit.symm.trans hc)
    · exact hmark.1 hc
    · exact hmark.2.1 hc
  · exact notMem_variablesText hletter hdigit hmark.2.2

/-- The magnitude ends where the next term begins. -/
theorem magnitudeText_append_inj {ms ns : List (Monomial R)}
    (heq : m.magnitudeText ++ Poly.restText ms = n.magnitudeText ++ Poly.restText ns) :
    m.magnitudeText = n.magnitudeText ∧ Poly.restText ms = Poly.restText ns := by
  have hspace : ∀ k : Monomial R, ∀ c ∈ k.magnitudeText, c ≠ ' ' :=
    fun k c hc hc' => notMem_magnitudeText h (.inl hc') hc
  have hrest : ∀ ks : List (Monomial R), ∀ c ∈ (Poly.restText ks).head?, ¬ c ≠ ' ' := by
    intro ks
    cases ks with
    | nil => exact fun c hc => nomatch hc
    | cons k ks => exact forall_head_cons (not_not.2 rfl)
  exact append_inj_of_class (hspace m) (hspace n) (hrest ms) (hrest ns) heq

/-- Only the sign of a negative term is a minus sign. -/
theorem minus_ne_magnitudeText (cs ds : List Char) : '-' :: cs ≠ m.magnitudeText ++ ds := by
  intro heq
  obtain ⟨c, es, htext⟩ := List.exists_cons_of_ne_nil (m.magnitudeText_ne_nil h)
  rw [htext, List.cons_append] at heq
  refine notMem_magnitudeText h (.inr rfl) (m := m) ?_
  rw [htext, (List.cons.inj heq).1]
  exact List.mem_cons_self

theorem text_append_inj {ms ns : List (Monomial R)} (hm : m.Fits) (hn : n.Fits)
    (heq : m.text ++ Poly.restText ms = n.text ++ Poly.restText ns) :
    m = n ∧ Poly.restText ms = Poly.restText ns := by
  unfold text at heq
  cases hsm : m.isNegative <;> cases hsn : n.isNegative
  · rw [hsm, hsn] at heq
    obtain ⟨htext, hrest⟩ := magnitudeText_append_inj h heq
    exact ⟨eq_of_magnitudeText_eq h hm hn (hsm.trans hsn.symm) htext, hrest⟩
  · rw [hsm, hsn] at heq
    exact absurd heq.symm (minus_ne_magnitudeText h _ _)
  · rw [hsm, hsn] at heq
    exact absurd heq (minus_ne_magnitudeText h _ _)
  · rw [hsm, hsn] at heq
    obtain ⟨htext, hrest⟩ := magnitudeText_append_inj h (List.cons.inj heq).2
    exact ⟨eq_of_magnitudeText_eq h hm hn (hsm.trans hsn.symm) htext, hrest⟩

end Monomial

/-! ## Polynomials -/

namespace Poly
variable (h : R.domain ≠ .real)
include h

theorem restText_inj {ms ns : List (Monomial R)} (hms : ∀ m ∈ ms, m.Fits)
    (hns : ∀ n ∈ ns, n.Fits) (heq : restText ms = restText ns) : ms = ns := by
  induction ms generalizing ns with
  | nil =>
    cases ns with
    | nil => rfl
    | cons n ns => exact absurd heq (List.cons_ne_nil _ _).symm
  | cons m ms ih =>
    cases ns with
    | nil => exact absurd heq (List.cons_ne_nil _ _)
    | cons n ns =>
      obtain ⟨hm, hms⟩ := List.forall_mem_cons.1 hms
      obtain ⟨hn, hns⟩ := List.forall_mem_cons.1 hns
      -- A space, a sign, a space and the magnitude.
      have hsigned : ∀ (k : Monomial R) ks, restText (k :: ks) =
          ' ' :: (if k.isNegative then '-' else '+') :: ' ' :: (k.magnitudeText ++ restText ks) :=
        fun _ _ => rfl
      rw [hsigned, hsigned] at heq
      obtain ⟨hsign, heq⟩ := List.cons.inj (List.cons.inj heq).2
      obtain ⟨htext, hrest⟩ := Monomial.magnitudeText_append_inj h (List.cons.inj heq).2
      have hsign : m.isNegative = n.isNegative := by
        cases hm : m.isNegative <;> cases hn : n.isNegative <;> simp_all
      rw [Monomial.eq_of_magnitudeText_eq h hm hn hsign htext, ih hms hns hrest]

variable {p q : Poly R}

theorem nonzero_eq_of_text_eq (hp : p.WellFormed) (hq : q.WellFormed) (heq : p.text = q.text) :
    p.nonzero = q.nonzero := by
  have hpfits := hp.prune.fits
  have hqfits := hq.prune.fits
  unfold prune at hpfits hqfits
  unfold text at heq
  cases hms : p.nonzero with
  | nil =>
    cases hns : q.nonzero with
    | nil => rfl
    | cons n ns =>
      rw [hms, hns] at heq
      exact absurd heq.symm (List.append_ne_nil_of_left_ne_nil (n.text_ne_nil h) _)
  | cons m ms =>
    cases hns : q.nonzero with
    | nil =>
      rw [hms, hns] at heq
      exact absurd heq (List.append_ne_nil_of_left_ne_nil (m.text_ne_nil h) _)
    | cons n ns =>
      rw [hms] at hpfits heq
      rw [hns] at hqfits heq
      obtain ⟨hm, hmsfits⟩ := List.forall_mem_cons.1 hpfits
      obtain ⟨hn, hnsfits⟩ := List.forall_mem_cons.1 hqfits
      obtain ⟨rfl, hrest⟩ := Monomial.text_append_inj h hm hn heq
      rw [restText_inj h hmsfits hnsfits hrest]

/-- Well-formed polynomials have the same text exactly when they are equal. So equal polynomials
are written alike or both refused for a number that is too long, and what is written for one is
written for another only if they are equal. `Poly.Reachable.wellFormed` provides the hypotheses on
the terms. -/
theorem text_eq_iff_same (hp : p.WellFormed) (hq : q.WellFormed) :
    (p.text = q.text ↔ p.same q = true) ∧
    (p.same q = true → p.write = q.write) ∧
    (∀ t, p.write = .ok t → (q.write = .ok t ↔ p.same q = true)) := by
  have htext : p.text = q.text ↔ p.same q = true := by
    rw [same_iff_nonzero_eq h]
    exact ⟨nonzero_eq_of_text_eq h hp hq, text_eq_of_nonzero_eq⟩
  have hwrite : p.same q = true → p.write = q.write := fun hsame => by
    rw [write, write, htext.2 hsame]
  refine ⟨htext, hwrite, fun t ht => ⟨fun ht' => htext.1 ?_, fun hsame => hwrite hsame ▸ ht⟩⟩
  rw [(Numeral.written_eq_ok_iff.1 ht).2, (Numeral.written_eq_ok_iff.1 ht').2]

omit h in
/-- Quotients, hidden magnitudes and a zero term: the zero term is the only difference. -/
theorem text_eq_iff_same_quotient :
    let R : PolyRing := ⟨.rational, ['x', 'y'], by simp, by simp, by simp [alphabet]⟩
    let p : Poly R := ⟨[⟨(1 / 3 : Rat), [2, 1]⟩, ⟨(0 : Rat), [1, 0]⟩, ⟨(-1 : Rat), [0, 1]⟩]⟩
    let q : Poly R := ⟨[⟨(1 / 3 : Rat), [2, 1]⟩, ⟨(-1 : Rat), [0, 1]⟩]⟩
    R.domain ≠ .real ∧ p.WellFormed ∧ q.WellFormed ∧ p.same q = true ∧
      p.write = .ok "1/3x^2y - y".toList ∧ q.write = .ok "1/3x^2y - y".toList := by
  intro R p q
  have hexact : R.domain ≠ .real := by decide
  have hp : p.WellFormed := ⟨by unfold Ordered; decide, by decide⟩
  have hq : q.WellFormed := ⟨by unfold Ordered; decide, by decide⟩
  have hwritten : p.write = .ok "1/3x^2y - y".toList := by cbv
  have hsame : p.same q = true := by cbv
  obtain ⟨-, -, hwrite⟩ := text_eq_iff_same hexact hp hq
  exact ⟨hexact, hp, hq, hsame, hwritten, (hwrite _ hwritten).2 hsame⟩

end Poly
end Multipoly
