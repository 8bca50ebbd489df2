import Multipoly.Proofs.RoundTrip
import Multipoly.Proofs.SameRing

/-!
# Decimal coefficients

The numbers of a line are decimals, and no operation but division leaves the decimals. So whatever
is computed from lines over the rational numbers has decimal coefficients, is written without a
quotient and is read back.

Results:
* `Rational.terminates_iff`: decimals are the integers divided by powers of ten;
* `Poly.Terminating.add`, `Poly.Terminating.mul`, ...: each operation keeps decimal coefficients;
* `Poly.slash_notMem_text`: such a polynomial is written without a slash;
* `Poly.FromTexts.reachable`, `Poly.FromTexts.terminating`: the polynomials computed from lines;
* `Poly.FromTexts.decimal`: their coefficients, their texts and how they are read back.
-/
namespace Multipoly
open Phrase

/-! ## Arithmetic of decimals -/

namespace Rational

theorem terminates_iff {q : ℚ} : Terminates q ↔ ∃ (n : ℤ) (k : ℕ), q = n / 10 ^ k := by
  constructor
  · intro hq
    obtain ⟨k, hk⟩ := (places_isSome_iff q.den_pos).2 hq
    obtain ⟨c, hc0, hc⟩ := exists_cofactor q.den_pos hk
    have hunit : (10 : ℚ) ^ k = q.den * c := by exact_mod_cast hc
    refine ⟨q.num * c, k, ?_⟩
    rw [hunit, Int.cast_mul, Int.cast_natCast, mul_div_mul_right _ _ (Nat.cast_ne_zero.2 hc0),
      Rat.num_div_den]
  · intro hfraction
    obtain ⟨n, k, rfl⟩ := hfraction
    have hdvd : ((n : ℚ) / 10 ^ k).den ∣ 2 ^ k * 5 ^ k := by
      rw [← Nat.mul_pow]
      exact den_dvd_ten_pow n k
    obtain ⟨d, e, hd, he, heq⟩ := Nat.dvd_mul.1 hdvd
    obtain ⟨a, -, rfl⟩ := (Nat.dvd_prime_pow Nat.prime_two).1 hd
    obtain ⟨b, -, rfl⟩ := (Nat.dvd_prime_pow Nat.prime_five).1 he
    exact ⟨a, b, heq.symm⟩

namespace Terminates
variable {a b : ℚ}

theorem add (ha : Terminates a) (hb : Terminates b) : Terminates (a + b) := by
  obtain ⟨n, k, rfl⟩ := terminates_iff.1 ha
  obtain ⟨m, l, rfl⟩ := terminates_iff.1 hb
  refine terminates_iff.2 ⟨n * 10 ^ l + 10 ^ k * m, k + l, ?_⟩
  have hten : ∀ i, (10 : ℚ) ^ i ≠ 0 := fun i => pow_ne_zero i (by norm_num)
  rw [div_add_div _ _ (hten k) (hten l), pow_add]
  push_cast
  rfl

theorem neg (ha : Terminates a) : Terminates (-a) := by
  rw [Terminates, Rat.den_neg_eq_den]
  exact ha

theorem sub (ha : Terminates a) (hb : Terminates b) : Terminates (a - b) := by
  rw [sub_eq_add_neg]
  exact ha.add hb.neg

theorem mul (ha : Terminates a) (hb : Terminates b) : Terminates (a * b) := by
  obtain ⟨n, k, rfl⟩ := terminates_iff.1 ha
  obtain ⟨m, l, rfl⟩ := terminates_iff.1 hb
  refine terminates_iff.2 ⟨n * m, k + l, ?_⟩
  rw [div_mul_div_comm, ← pow_add, Int.cast_mul]

end Terminates
end Rational

theorem Literal.terminates_value (t : List Char) : Rational.Terminates (value t) :=
  Rational.terminates_iff.2 ⟨natural (whole t ++ fraction t), (fraction t).length, rfl⟩

/-- A number token of some text. -/
def Literal.Scanned (t : List Char) : Prop :=
  ∃ symbols cs rest, Token.scan symbols cs = .ok (.number t, rest)

variable {R S : PolyRing}

section
variable (h : R.domain ≠ .real)
include h

theorem Literal.terminates_number (t : List Char) :
    Rational.Terminates (R.domain.toRat (number R.domain t)) := by
  have hnumber : ∀ d : Domain, d ≠ .real → Rational.Terminates (d.toRat (number d t)) := by
    intro d hd
    cases d with
    | integer => exact Rational.terminates_intCast _
    | rational => exact terminates_value t
    | real => exact absurd rfl hd
  exact hnumber R.domain h

/-- A literal that the ring accepts is a decimal. -/
theorem Literal.terminates_of_ofLiteral {t : List Char} {k : R.Carrier} (ht : Literal.Scanned t)
    (hk : Coefficient.ofLiteral t = .ok k) : Rational.Terminates (R.domain.toRat k) := by
  obtain ⟨symbols, cs, rest, hscan⟩ := ht
  obtain ⟨-, rfl⟩ := (ofLiteral_eq_ok_iff (Token.isNumeral_of_scan hscan)).1 hk
  exact terminates_number h t

theorem Domain.terminates_one : Rational.Terminates (R.domain.toRat 1) := by
  rw [toRat_one h]
  exact Rational.terminates_intCast 1

/-! ## Terms -/

namespace Monomial
variable {m n : Monomial R}

theorem Terminates.mul (hm : m.Terminates) (hn : n.Terminates) : (m.mul n).Terminates := by
  have hcoeff : Rational.Terminates (R.domain.toRat (m.coeff * n.coeff)) := by
    rw [Domain.toRat_mul h]
    exact Rational.Terminates.mul hm hn
  unfold Monomial.mul
  dsimp only
  split <;> exact hcoeff

theorem Terminates.neg (hm : m.Terminates) : m.neg.Terminates := by
  unfold Monomial.Terminates Monomial.neg
  rw [Domain.toRat_negate h]
  exact Rational.Terminates.neg hm

theorem Terminates.scale {k : R.Carrier} (hm : m.Terminates)
    (hk : Rational.Terminates (R.domain.toRat k)) : (m.scale k).Terminates := by
  unfold Monomial.Terminates Monomial.scale
  rw [Domain.toRat_mul h]
  exact Rational.Terminates.mul hm hk

theorem Terminates.scaleLeft {k : R.Carrier} (hm : m.Terminates)
    (hk : Rational.Terminates (R.domain.toRat k)) : (m.scaleLeft k).Terminates := by
  unfold Monomial.Terminates Monomial.scaleLeft
  rw [Domain.toRat_mul h]
  exact Rational.Terminates.mul hk hm

end Monomial

end

theorem Monomial.Terminates.cast {m : Monomial S} (hm : m.Terminates) (hS : S = R) :
    (m.cast hS).Terminates := by
  subst hS
  exact hm

/-! ## Polynomials -/

namespace Poly

/-- All stored coefficients are decimals. -/
def Terminating (p : Poly R) : Prop := ∀ m ∈ p.terms, m.Terminates

/-- What holds of the terms of a list and of a merged one, as a new term and as a change of any term
of the list, holds of the terms after the merge. -/
theorem forall_mem_merge {P : Monomial R → Prop} {join : R.Carrier → R.Carrier}
    {fresh : R.Carrier} {u : Powers} {ms : List (Monomial R)} (hms : ∀ m ∈ ms, P m)
    (hfresh : P ⟨fresh, u⟩) (hjoin : ∀ m ∈ ms, P { m with coeff := join m.coeff }) :
    ∀ m ∈ merge join fresh u ms, P m := by
  induction ms with
  | nil => exact List.forall_mem_singleton.2 hfresh
  | cons m ms ih =>
    obtain ⟨hm, htail⟩ := List.forall_mem_cons.1 hms
    obtain ⟨hm', htail'⟩ := List.forall_mem_cons.1 hjoin
    unfold merge
    split
    · exact List.forall_mem_cons.2 ⟨hfresh, hms⟩
    · exact List.forall_mem_cons.2 ⟨hm', htail⟩
    · exact List.forall_mem_cons.2 ⟨hm, ih htail htail'⟩

theorem terminating_empty : (empty : Poly R).Terminating := nofun

namespace Terminating
variable {p q : Poly R} {m : Monomial R} (h : R.domain ≠ .real)

section
include h

theorem addTerm (hp : p.Terminating) (hm : m.Terminates) : (p.addTerm m).Terminating := by
  refine forall_mem_merge hp hm fun n hn => ?_
  show Rational.Terminates (R.domain.toRat (n.coeff + m.coeff))
  rw [Domain.toRat_add h]
  exact Rational.Terminates.add (hp n hn) hm

theorem subTerm (hp : p.Terminating) (hm : m.Terminates) : (p.subTerm m).Terminating := by
  refine forall_mem_merge hp (hm.neg h) fun n hn => ?_
  show Rational.Terminates (R.domain.toRat (n.coeff - m.coeff))
  rw [Domain.toRat_sub h]
  exact Rational.Terminates.sub (hp n hn) hm

theorem add (hp : p.Terminating) (hq : q.Terminating) : (p.add q).Terminating :=
  List.foldlRecOn q.terms _ hp fun _ hr n hn => addTerm h hr (hq n hn)

theorem sub (hp : p.Terminating) (hq : q.Terminating) : (p.sub q).Terminating :=
  List.foldlRecOn q.terms _ hp fun _ hr n hn => subTerm h hr (hq n hn)

theorem one : (Poly.one : Poly R).Terminating :=
  List.forall_mem_singleton.2 (Domain.terminates_one h)

theorem scale {k : R.Carrier} (hp : p.Terminating) (hk : Rational.Terminates (R.domain.toRat k)) :
    (p.scale k).Terminating :=
  List.forall_mem_map.2 fun m hm => Monomial.Terminates.scale h (hp m hm) hk

theorem scaleLeft {k : R.Carrier} (hp : p.Terminating)
    (hk : Rational.Terminates (R.domain.toRat k)) : (p.scaleLeft k).Terminating :=
  List.forall_mem_map.2 fun m hm => Monomial.Terminates.scaleLeft h (hp m hm) hk

theorem neg (hp : p.Terminating) : p.neg.Terminating := by
  refine scale h hp ?_
  rw [Domain.toRat_negate h]
  exact (Domain.terminates_one h).neg

theorem mul (hp : p.Terminating) (hq : q.Terminating) : (p.mul q).Terminating :=
  List.foldlRecOn p.terms _ terminating_empty fun _ hr m hm =>
    List.foldlRecOn q.terms _ hr fun _ hs n hn =>
      addTerm h hs (Monomial.Terminates.mul h (hp m hm) (hq n hn))

theorem pow (hp : p.Terminating) (n : Nat) : (p.pow n).Terminating := by
  cases n with
  | zero => exact one h
  | succ n =>
    show (Nat.repeat (·.mul p) n p).Terminating
    induction n with
    | zero => exact hp
    | succ n ih => exact mul h ih hp

theorem powInt {e : Int} (hp : p.Terminating) (hq : p.powInt e = .ok q) : q.Terminating := by
  cases e with
  | ofNat n => cases hq; exact pow h hp n
  | negSucc n => cases hq

theorem addDerivative {slot : Nat} (hp : p.Terminating) (hm : m.Terminates)
    (hq : addDerivative slot p m = .ok q) : q.Terminating := by
  unfold Poly.addDerivative at hq
  split at hq
  · cases hq; exact hp
  · rename_i e _
    obtain ⟨k, hk⟩ := Domain.exists_ofInt h (e + 1 : Nat)
    rw [hk] at hq
    cases hq
    refine addTerm h hp ?_
    show Rational.Terminates (R.domain.toRat (m.coeff * k))
    rw [Domain.toRat_mul h, Domain.toRat_ofInt h hk]
    exact Rational.Terminates.mul hm (Rational.terminates_intCast _)

end

theorem prune (hp : p.Terminating) : p.prune.Terminating :=
  fun m hm => hp m (List.mem_filter.1 hm).1

include h

theorem derivative {name : String} (hp : p.Terminating) (hq : p.derivative name = .ok q) :
    q.Terminating := by
  cases hs : R.slot name with
  | error e => rw [Poly.derivative, hs] at hq; cases hq
  | ok slot =>
    rw [derivative_of_slot hs] at hq
    cases hr : p.nonzero.foldlM (Poly.addDerivative slot) empty with
    | error e => rw [hr] at hq; cases hq
    | ok r =>
      rw [hr] at hq
      cases hq
      exact foldlM_keeps (fun d hd m hm d' hd' => addDerivative h hd (hp.prune m hm) hd')
        terminating_empty hr

/-! ## Operands -/

theorem addMonomial {m : Monomial S} (hp : p.Terminating) (hm : m.Terminates) :
    ((Poly.addMonomial m).apply p).2.Terminating :=
  mergeAny_keeps hp fun hS => addTerm h hp (hm.cast hS)

theorem subMonomial {m : Monomial S} (hp : p.Terminating) (hm : m.Terminates) :
    ((Poly.subMonomial m).apply p).2.Terminating :=
  mergeAny_keeps hp fun hS => subTerm h hp (hm.cast hS)

variable {o : Operand R} (ho : ∀ m ∈ o.terms, m.Terminates)
include ho

theorem increase (hp : p.Terminating) : ((Poly.increase o).apply p).2.Terminating :=
  Update.forM_keeps (fun _ hr m hm => addMonomial h hr (ho m hm)) hp

theorem decrease (hp : p.Terminating) : ((Poly.decrease o).apply p).2.Terminating :=
  Update.forM_keeps (fun _ hr m hm => subMonomial h hr (ho m hm)) hp

theorem plus (hp : p.Terminating) (hq : p.plus o = .ok q) : q.Terminating :=
  Update.on_eq_ok hq ▸ increase h ho hp

theorem minus (hp : p.Terminating) (hq : p.minus o = .ok q) : q.Terminating :=
  Update.on_eq_ok hq ▸ decrease h ho hp

theorem minusFrom (hp : p.Terminating) (hq : minusFrom o p = .ok q) : q.Terminating :=
  plus h ho (neg h hp) hq

omit ho in
theorem addProduct {m : Monomial R} {n : Monomial S} (hp : p.Terminating) (hm : m.Terminates)
    (hn : n.Terminates) (hq : addProduct p m n = .ok q) : q.Terminating := by
  unfold Poly.addProduct Monomial.mulAny at hq
  by_cases hS : S = R
  · rw [dif_pos hS] at hq
    cases hq
    exact addTerm h hp (Monomial.Terminates.mul h hm (hn.cast hS))
  · rw [dif_neg hS] at hq
    cases hq

theorem times (hp : p.Terminating) (hq : p.times o = .ok q) : q.Terminating := by
  have hfold : p.terms.foldlM (fun product m => o.terms.foldlM (Poly.addProduct · m) product)
      Poly.empty = .ok q → q.Terminating :=
    foldlM_keeps (fun r hr m hm r' hr' =>
      foldlM_keeps (fun s hs n hn s' hs' => addProduct h hs (hp m hm) (ho n hn) hs') hr hr')
      terminating_empty
  cases o with
  | scalar k => cases hq; exact scale h hp (ho _ List.mem_cons_self)
  | monomial S m => exact hfold hq
  | poly S q => exact hfold hq

theorem timesFrom (hp : p.Terminating) (hq : timesFrom o p = .ok q) : q.Terminating := by
  cases o with
  | scalar k => cases hq; exact scaleLeft h hp (ho _ List.mem_cons_self)
  | monomial S m => exact times h ho hp hq
  | poly S q => exact times h ho hp hq

end Terminating
end Poly

/-! ## Lines -/

/-- Where doubles are left out of consideration, they count as zero. -/
theorem Monomial.terminates_of_real {m : Monomial R} (h : R.domain = .real) : m.Terminates := by
  have hzero : ∀ (d : Domain) (k : d.Carrier), d = .real → d.toRat k = 0 := by
    intro d k hd
    subst hd
    rfl
  rw [Monomial.Terminates, hzero _ _ h]
  exact Rational.terminates_intCast 0

theorem Poly.Terminating.of_exact {p : Poly R} (hp : R.domain ≠ .real → p.Terminating) :
    p.Terminating := by
  by_cases h : R.domain = .real
  · exact fun m _ => Monomial.terminates_of_real h
  · exact hp h

section
variable {ts rest : List Token} {m : Monomial R} {ms : Run R} {e : Expr R}
  (h : R.domain ≠ .real)
include h

theorem Phrase.Unsigned.terminates (hm : Unsigned R ts m rest) : m.Terminates := by
  cases hm with
  | number _ _ => exact Literal.terminates_number h _
  | letters _ _ => exact Domain.terminates_one h

theorem Phrase.RunRest.terminates (hms : RunRest R ts ms rest) : ∀ f ∈ ms, f.2.Terminates := by
  induction hms with
  | stop _ => exact nofun
  | next hm _ ih => exact List.forall_mem_cons.2 ⟨hm.terminates h, ih⟩

theorem Run.terminating_value (hms : ∀ f ∈ ms, f.2.Terminates) : ms.value.Terminating := by
  refine List.foldlRecOn ms _ Poly.terminating_empty fun p hp f hf => ?_
  obtain ⟨s, m⟩ := f
  cases s with
  | plus => exact Poly.Terminating.addTerm h hp (hms _ hf)
  | minus => exact Poly.Terminating.subTerm h hp (hms _ hf)

theorem Phrase.Reads.terminating_value {l : Level} (he : Reads R l ts e rest) :
    e.value.Terminating := by
  induction he with
  | run hm hms =>
    exact Run.terminating_value h (List.forall_mem_cons.2 ⟨hm.terminates h, hms.terminates h⟩)
  | minusRun hm hms =>
    exact Run.terminating_value h (List.forall_mem_cons.2 ⟨hm.terminates h, hms.terminates h⟩)
  | neg _ _ ih => exact Poly.Terminating.neg h ih
  | group _ ih => exact ih
  | power _ _ ih => exact Poly.Terminating.pow h ih _
  | factor _ ih => exact ih
  | mul _ _ ih ih' => exact Poly.Terminating.mul h ih ih'
  | product _ ih => exact ih
  | @join s _ _ _ _ _ _ _ ih ih' =>
    cases s with
    | plus => exact Poly.Terminating.add h ih ih'
    | minus => exact Poly.Terminating.sub h ih ih'

theorem Poly.Terminating.read {text : List Char} {p : Poly R} (hp : Poly.read R text = .ok p) :
    p.Terminating := by
  obtain ⟨ts, e, -, he, rfl⟩ := Poly.read_eq_ok_iff.1 hp
  cases he with
  | blank => exact terminating_empty
  | sum he => exact he.terminating_value h

end

/-- A monomial that is read on a line of its own is one without a sign, or its negation. -/
theorem Monomial.unsigned_of_read {text : List Char} {m : Monomial R}
    (hm : Monomial.read R text = .ok m) :
    ∃ n ts rest, Unsigned R ts n rest ∧ (m = n ∨ m = n.neg) := by
  have hs := Line.scanned_lexemes alphabet text
  unfold Monomial.read at hm
  generalize Line.scan alphabet text = line at hm hs
  dsimp only at hm
  cases hstart : line.start with
  | error e => rw [hstart] at hm; cases hm
  | ok ts =>
    obtain ⟨-, rfl⟩ := Line.start_eq_ok.1 hstart
    rw [hstart] at hm
    obtain ⟨us, hdone⟩ := Outcome.toExcept_eq_ok_iff.1 hm
    unfold Line.wholeMonomial at hdone
    simp only [Outcome.done_andThen, Outcome.done_widen, Outcome.done_map] at hdone
    obtain ⟨n, rest, lt, hmonomial, _, -, rfl⟩ := hdone
    generalize line.lexemes = ts at hs hmonomial
    unfold Line.monomial at hmonomial
    cases ts with
    | nil => exact ⟨n, _, _, (Line.reads_of_unsigned hs hmonomial).2, .inl rfl⟩
    | cons l ts =>
      dsimp only at hmonomial
      split at hmonomial
      · rw [Line.done_advance, Outcome.done_widen, Outcome.done_map] at hmonomial
        obtain ⟨-, n', hn', rfl⟩ := hmonomial
        exact ⟨n', _, _, (Line.reads_of_unsigned hs.tail hn').2, .inr rfl⟩
      · exact ⟨n, _, _, (Line.reads_of_unsigned hs hmonomial).2, .inl rfl⟩

theorem Monomial.Fits.read {text : List Char} {m : Monomial R}
    (hm : Monomial.read R text = .ok m) : m.Fits := by
  obtain ⟨n, ts, rest, hn, rfl | rfl⟩ := unsigned_of_read hm
  · exact hn.fits
  · exact hn.fits

theorem Monomial.Terminates.read {text : List Char} {m : Monomial R}
    (hm : Monomial.read R text = .ok m) : m.Terminates := by
  by_cases h : R.domain = .real
  · exact terminates_of_real h
  · obtain ⟨n, ts, rest, hn, rfl | rfl⟩ := unsigned_of_read hm
    · exact hn.terminates h
    · exact Monomial.Terminates.neg h (hn.terminates h)

/-! ## Texts -/

theorem IsNumeral.slash_notMem {t : List Char} (h : IsNumeral t) : '/' ∉ t := by
  have hdigits : ∀ ds, AllDigits ds → '/' ∉ ds := fun ds hds hmem =>
    Literal.ne_of_isDigit (hds.2 _ hmem) (by decide) rfl
  cases h with
  | whole h => exact hdigits _ h
  | point h h' => simp [hdigits _ h, hdigits _ h']

namespace Monomial
variable {m : Monomial R}

/-- Variables are written with letters, carets and digits. -/
theorem notMem_variablesText {c : Char} (hletter : c ∉ alphabet) (hdigit : c.isDigit = false)
    (hcaret : c ≠ '^') : c ∉ m.variablesText := by
  intro hmem
  obtain ⟨⟨v, e⟩, hve, hmem⟩ := List.mem_flatMap.1 hmem
  have hv : c ≠ v := fun heq => hletter (heq ▸ R.mem_alphabet v (mem_vars_of_mem_zip hve))
  have he : c ∉ Nat.toDigits 10 e := fun hc =>
    Literal.ne_of_isDigit ((Literal.allDigits_toDigits e).2 c hc) hdigit rfl
  dsimp only [powerText] at hmem
  split at hmem
  · exact List.not_mem_nil hmem
  · split at hmem
    · exact hv (List.mem_singleton.1 hmem)
    · simp [hv, hcaret, he] at hmem

theorem slash_notMem_variablesText : '/' ∉ m.variablesText :=
  notMem_variablesText (by decide) rfl (by decide)

theorem slash_notMem_magnitudeText (h : R.domain ≠ .real) (hm : m.Terminates) :
    '/' ∉ m.magnitudeText := by
  have hmagnitude : '/' ∉ Coefficient.text (Coefficient.absolute m.coeff) :=
    (Domain.text_of_terminates h (magnitude_nonneg h m)
      ((terminates_magnitude h).2 hm)).1.slash_notMem
  unfold magnitudeText
  dsimp only
  split
  · exact slash_notMem_variablesText
  · simp [hmagnitude, slash_notMem_variablesText]

end Monomial

theorem Poly.slash_notMem_text (h : R.domain ≠ .real) {p : Poly R} (hp : p.Terminating) :
    '/' ∉ p.text := by
  have hmagnitude : ∀ m ∈ p.nonzero, '/' ∉ m.magnitudeText := fun m hm =>
    Monomial.slash_notMem_magnitudeText h (hp.prune m hm)
  unfold text
  cases hterms : p.nonzero with
  | nil => exact List.not_mem_nil
  | cons m ms =>
    rw [hterms] at hmagnitude
    obtain ⟨hm, hms⟩ := List.forall_mem_cons.1 hmagnitude
    have hfirst : '/' ∉ m.text := by
      unfold Monomial.text
      split
      · simp [hm]
      · exact hm
    have hrest : '/' ∉ restText ms := by
      intro hmem
      obtain ⟨n, hn, hmem⟩ := List.mem_flatMap.1 hmem
      split at hmem <;> simp [hms n hn] at hmem
    simp [hfirst, hrest]

/-- A decimal coefficient of the rational domain is written as its exact decimal. -/
theorem Domain.decimalText_eq {d : Domain} (hd : d = .rational) {c : d.Carrier}
    (hc : Rational.Terminates (d.toRat c)) :
    Rational.decimalText? (d.toRat c) = some (Coefficient.text c) := by
  subst hd
  obtain ⟨k, hk⟩ := (Rational.places_isSome_iff c.den_pos).2 hc
  show Rational.decimalText? c = some (Rational.display c)
  unfold Rational.display Rational.decimalText? Rational.decimal?
  have hk' : Rational.places? (Rat.den c) = some k := hk
  rw [hk']
  rfl

/-! ## Runs of operations -/

/-- What an operator on a polynomial and an operand yields: the result of a sum, a difference or a
product with the polynomial on either side, or the polynomial that an update in place leaves, be it
granted or refused. -/
inductive Poly.Combines (p : Poly R) (o : Operand R) : Poly R → Prop
  | plus {r : Poly R} (h : p.plus o = .ok r) : Combines p o r
  | minus {r : Poly R} (h : p.minus o = .ok r) : Combines p o r
  | minusFrom {r : Poly R} (h : minusFrom o p = .ok r) : Combines p o r
  | times {r : Poly R} (h : p.times o = .ok r) : Combines p o r
  | timesFrom {r : Poly R} (h : timesFrom o p = .ok r) : Combines p o r
  | increase : Combines p o ((increase o).apply p).2
  | decrease : Combines p o ((decrease o).apply p).2

/-- An operand that is no polynomial is a literal that a scan found, or a monomial that was read. -/
def Operand.Written : Operand R → Prop
  | .scalar k => ∃ t, Literal.Scanned t ∧ Coefficient.ofLiteral t = .ok k
  | .monomial S m => ∃ text, Monomial.read S text = .ok m
  | .poly _ _ => True

/-- The polynomials that operations produce from lines, from monomials that were read and from
literals. The operand of an operator may belong to any ring. -/
inductive Poly.FromTexts : {R : PolyRing} → Poly R → Prop
  | read {R : PolyRing} {p : Poly R} {text : List Char} (h : Poly.read R text = .ok p) :
      FromTexts p
  | combine {R : PolyRing} {p r : Poly R} {o : Operand R} (hp : FromTexts p) (ho : o.Written)
      (hq : ∀ S q, o = .poly S q → FromTexts q) (h : p.Combines o r) : FromTexts r
  | addMonomial {R S : PolyRing} {p : Poly R} {m : Monomial S} {text : List Char}
      (hp : FromTexts p) (hm : Monomial.read S text = .ok m) :
      FromTexts ((addMonomial m).apply p).2
  | subMonomial {R S : PolyRing} {p : Poly R} {m : Monomial S} {text : List Char}
      (hp : FromTexts p) (hm : Monomial.read S text = .ok m) :
      FromTexts ((subMonomial m).apply p).2
  | scale {R : PolyRing} {p : Poly R} {t : List Char} {k : R.Carrier} (hp : FromTexts p)
      (ht : Literal.Scanned t) (hk : Coefficient.ofLiteral t = .ok k) : FromTexts (p.scale k)
  | neg {R : PolyRing} {p : Poly R} (hp : FromTexts p) : FromTexts p.neg
  | powInt {R : PolyRing} {p r : Poly R} {e : Int} (hp : FromTexts p) (h : p.powInt e = .ok r) :
      FromTexts r
  | prune {R : PolyRing} {p : Poly R} (hp : FromTexts p) : FromTexts p.prune
  | derivative {R : PolyRing} {p r : Poly R} {name : String} (hp : FromTexts p)
      (h : p.derivative name = .ok r) : FromTexts r

namespace Poly
variable {p r : Poly R} {o : Operand R}

theorem Combines.reachable (h : p.Combines o r) (hp : p.Reachable) (ho : o.Written)
    (hq : ∀ S q, o = .poly S q → Reachable q) : r.Reachable := by
  have hm : ∀ S m, o = .monomial S m → m.Granted := by
    intro S m heq
    subst heq
    obtain ⟨text, hread⟩ := ho
    exact Monomial.granted_iff_fits.2 (Monomial.Fits.read hread)
  cases h with
  | plus h => exact hp.plus hm hq h
  | minus h => exact hp.minus hm hq h
  | minusFrom h => exact hp.minusFrom hm hq h
  | times h => exact hp.times hm hq h
  | timesFrom h => exact hp.timesFrom hm hq h
  | increase => exact hp.increase hm hq
  | decrease => exact hp.decrease hm hq

theorem Combines.terminating (hR : R.domain ≠ .real) (h : p.Combines o r) (hp : p.Terminating)
    (ho : ∀ m ∈ o.terms, m.Terminates) : r.Terminating := by
  cases h with
  | plus h => exact hp.plus hR ho h
  | minus h => exact hp.minus hR ho h
  | minusFrom h => exact hp.minusFrom hR ho h
  | times h => exact hp.times hR ho h
  | timesFrom h => exact hp.timesFrom hR ho h
  | increase => exact hp.increase hR ho
  | decrease => exact hp.decrease hR ho

end Poly

theorem Operand.Written.terminates {o : Operand R} (hR : R.domain ≠ .real) (ho : o.Written)
    (hq : ∀ S q, o = .poly S q → q.Terminating) : ∀ m ∈ o.terms, m.Terminates := by
  cases o with
  | scalar k =>
    obtain ⟨t, ht, hk⟩ := ho
    exact List.forall_mem_singleton.2 (Literal.terminates_of_ofLiteral hR ht hk)
  | monomial S m =>
    obtain ⟨text, hread⟩ := ho
    exact List.forall_mem_singleton.2 (Monomial.Terminates.read hread)
  | poly S q => exact hq S q rfl

namespace Poly.FromTexts
variable {p : Poly R}

theorem reachable (h : p.FromTexts) : p.Reachable := by
  induction h with
  | read h => exact .read h
  | combine _ ho _ h ih ihq => exact h.reachable ih ho ihq
  | addMonomial _ hm ih =>
    exact ih.addMonomial (Monomial.granted_iff_fits.2 (Monomial.Fits.read hm))
  | subMonomial _ hm ih =>
    exact ih.subMonomial (Monomial.granted_iff_fits.2 (Monomial.Fits.read hm))
  | scale _ _ _ ih => exact ih.scale _
  | neg _ ih => exact ih.neg
  | powInt _ h ih => exact ih.powInt h
  | prune _ ih => exact ih.prune
  | derivative _ h ih => exact ih.derivative h

theorem terminating (h : p.FromTexts) : p.Terminating := by
  induction h with
  | read h => exact .of_exact fun hR => .read hR h
  | combine _ ho _ h ih ihq =>
    exact .of_exact fun hR => h.terminating hR ih (ho.terminates hR ihq)
  | addMonomial _ hm ih => exact .of_exact fun hR => ih.addMonomial hR (.read hm)
  | subMonomial _ hm ih => exact .of_exact fun hR => ih.subMonomial hR (.read hm)
  | scale _ ht hk ih =>
    exact .of_exact fun hR => ih.scale hR (Literal.terminates_of_ofLiteral hR ht hk)
  | neg _ ih => exact .of_exact fun hR => ih.neg hR
  | powInt _ h ih => exact .of_exact fun hR => ih.powInt hR h
  | prune _ ih => exact ih.prune
  | derivative _ h ih => exact .of_exact fun hR => ih.derivative hR h

/-- Over the rational numbers a polynomial computed from lines has coefficients whose denominators
are powers of two times powers of five. They and their magnitudes are written as exact decimals, so
the text has no slash, and unless a run of its digits is too long it is written and read back. -/
theorem decimal (hR : R.domain = .rational) (h : p.FromTexts) :
    (∀ m ∈ p.terms,
      (∃ a b, (R.domain.toRat m.coeff).den = 2 ^ a * 5 ^ b) ∧
      Rational.decimalText? (R.domain.toRat m.coeff) = some (Coefficient.text m.coeff) ∧
      Rational.decimalText? (R.domain.toRat m.magnitude.coeff) =
        some (Coefficient.text m.magnitude.coeff)) ∧
    '/' ∉ p.text ∧
    (ShortRuns p.text → p.write = .ok p.text ∧
      ∃ q, Poly.read R p.text = .ok q ∧ q.terms = p.nonzero ∧ q.same p = true) := by
  have hexact : R.domain ≠ .real := by
    rw [hR]
    decide
  have hp : p.Terminating := h.terminating
  refine ⟨fun m hm => ⟨hp m hm, Domain.decimalText_eq hR (hp m hm), ?_⟩,
    slash_notMem_text hexact hp, fun hruns => ?_⟩
  · exact Domain.decimalText_eq hR ((Monomial.terminates_magnitude hexact).2 (hp m hm))
  · obtain ⟨hwrite, hread, -⟩ := read_text hexact h.reachable.wellFormed hruns
    obtain ⟨q, hq, hterms, hsame, -⟩ := hread (hp.prune ·)
    exact ⟨hwrite, q, hq, hterms, hsame⟩

/-- Two fifths of the square of `1.5x` is `0.9x^2`. -/
theorem decimal_square :
    let R : PolyRing := ⟨.rational, ['x'], by simp, by simp, by simp [alphabet]⟩
    let p : Poly R := ⟨[⟨(9 / 10 : Rat), [2]⟩]⟩
    let cs := ['0', '.', '9', 'x', '^', '2']
    R.domain = .rational ∧ p.FromTexts ∧ p.text = cs ∧ '/' ∉ cs ∧
      Rational.decimalText? (9 / 10) = some ['0', '.', '9'] ∧ ShortRuns cs ∧
      p.write = .ok cs ∧ ∃ q, Poly.read R cs = .ok q ∧ q.terms = p.nonzero ∧ q.same p = true := by
  intro R p cs
  have hline : Poly.read R ['1', '.', '5', 'x'] = .ok ⟨[⟨(3 / 2 : Rat), [1]⟩]⟩ := by cbv
  have hliteral : Literal.Scanned ['0', '.', '4'] := ⟨[], ['0', '.', '4'], [], by rfl⟩
  have hnumber : (Coefficient.ofLiteral ['0', '.', '4'] : Except NumeralError R.Carrier) =
      .ok (2 / 5 : Rat) := by cbv
  have hsquare : (⟨[⟨(3 / 2 : Rat), [1]⟩]⟩ : Poly R).powInt 2 =
      .ok ⟨[⟨(9 / 4 : Rat), [2]⟩]⟩ := by cbv
  have hp : p.FromTexts := by
    have hscale := FromTexts.scale (.powInt (.read hline) hsquare) hliteral hnumber
    have heq : (⟨[⟨(9 / 4 : Rat), [2]⟩]⟩ : Poly R).scale (2 / 5 : Rat) =
        ⟨[⟨(9 / 10 : Rat), [2]⟩]⟩ := by cbv
    rwa [heq] at hscale
  have htext : p.text = cs := by cbv
  have hruns : ShortRuns p.text := shortRuns_of_length_le (by rw [htext]; decide)
  obtain ⟨hcoeffs, hslash, hread⟩ := decimal (R := R) rfl hp
  obtain ⟨-, hdecimal, -⟩ := hcoeffs _ List.mem_cons_self
  have hcoeff : Coefficient.text (9 / 10 : Rat) = ['0', '.', '9'] := by cbv
  rw [htext] at hslash hread hruns
  exact ⟨rfl, hp, htext, hslash, hdecimal.trans (congrArg some hcoeff), hruns, hread hruns⟩

end Poly.FromTexts
end Multipoly
