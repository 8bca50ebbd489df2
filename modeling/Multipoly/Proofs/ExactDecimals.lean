import Mathlib.Data.Nat.Digits.Lemmas
import Multipoly.Proofs.Rendering

/-!
# Exact decimals

The decimal text of a rational number. It exists exactly when the denominator has no primes but 2
and 5, and then it denotes the number and has no superfluous zero at either end, so it is the
shortest text that does. Reading gives the number back. Integers are written up to a number of
digits only: the whole part and the fraction are each written as an integer, so a text in which one
of them is too long is not given out.

Results:
* `Numeral.longest_le_iff`: which number tokens can be written;
* `Decimal.isCanonical_text`, `Decimal.length_text_le`: a decimal without a superfluous place has
  the shortest text;
* `Rational.places_eq_none_iff`: the denominators without decimals;
* `Rational.reduced_of_decimal`: the decimal of a number has no superfluous place;
* `Rational.exact_decimal_text`: the text of every rational number.
-/
namespace Multipoly

/-! ## Digits -/

namespace Literal

theorem natural_singleton (c : Char) : natural [c] = c.toNat - 48 := by
  simp [natural, Nat.ofDigitChars_cons]

theorem natural_lt_pow {ds : List Char} (h : ∀ c ∈ ds, c.isDigit = true) :
    natural ds < 10 ^ ds.length := by
  induction ds with
  | nil => exact Nat.one_pos
  | cons c ds ih =>
    obtain ⟨hc, hds⟩ := List.forall_mem_cons.1 h
    have hdigit : natural [c] ≤ 9 := by
      rw [natural_singleton]
      have := (toNat_bounds hc).2
      omega
    calc natural (c :: ds) = natural [c] * 10 ^ ds.length + natural ds := natural_append [c] ds
      _ < natural [c] * 10 ^ ds.length + 10 ^ ds.length := Nat.add_lt_add_left (ih hds) _
      _ = (natural [c] + 1) * 10 ^ ds.length := (Nat.succ_mul _ _).symm
      _ ≤ 10 * 10 ^ ds.length := Nat.mul_le_mul_right _ (Nat.succ_le_succ hdigit)
      _ = 10 ^ (c :: ds).length := (Nat.pow_succ').symm

/-- Only zero is written with a zero in front. -/
theorem toDigits_eq_zero_cons {n : Nat} {ds : List Char} (h : Nat.toDigits 10 n = '0' :: ds) :
    ds = [] := by
  by_contra hne
  have hdigits : ∀ c ∈ ds, c.isDigit = true := fun c hc =>
    (allDigits_toDigits n).2 c (h ▸ List.mem_cons_of_mem _ hc)
  have hn : n = natural ds := by
    rw [← natural_toDigits n, h, ← List.singleton_append, natural_append, natural_singleton]
    simp
  have hlength := (Nat.length_toDigits_le_iff (by decide : 1 < 10) (List.length_pos_iff.2 hne)).2
    (hn ▸ natural_lt_pow hdigits)
  rw [h, List.length_cons] at hlength
  omega

/-! ## The parts of a number token -/

theorem allDigits_whole {t : List Char} (ht : IsNumeral t) : AllDigits (whole t) := by
  cases ht with
  | whole h => rwa [whole_of_digits h]
  | point h _ => rwa [whole_append_point h]

theorem isDigit_of_mem_fraction {t : List Char} (ht : IsNumeral t) :
    ∀ c ∈ fraction t, c.isDigit = true := by
  cases ht with
  | whole h =>
    rw [fraction_of_digits h]
    exact fun _ hc => nomatch hc
  | point h h' =>
    rw [fraction_append_point h]
    exact h'.2

/-- A point is written only where digits follow it. -/
theorem length_of_isNumeral {t : List Char} (ht : IsNumeral t) :
    t.length = (whole t).length + (fraction t).length + min 1 (fraction t).length := by
  cases ht with
  | whole h =>
    rw [whole_of_digits h, fraction_of_digits h]
    rfl
  | point h h' =>
    have hpos := List.length_pos_iff.2 h'.1
    rw [whole_append_point h, fraction_append_point h, List.length_append, List.length_cons]
    omega

end Literal

/-! ## The digit limit -/

namespace Numeral
open Literal

/-- A digit makes a number longer, unless it is a zero in front. -/
theorem length_digits_append {c : Char} (hc : c.isDigit = true) (n : Nat) :
    (Nat.digits 10 (10 * n + (c.toNat - 48))).length =
      if (Nat.digits 10 n).length = 0 ∧ c = '0' then 0 else (Nat.digits 10 n).length + 1 := by
  obtain ⟨hlow, hhigh⟩ := toNat_bounds hc
  have hlength : (Nat.digits 10 n).length = 0 ↔ n = 0 :=
    List.length_eq_zero_iff.trans Nat.digits_eq_nil_iff_eq_zero
  by_cases hzero : (Nat.digits 10 n).length = 0 ∧ c = '0'
  · rw [if_pos hzero, hlength.1 hzero.1, hzero.2]
    rfl
  · have hdigit : c.toNat - 48 ≠ 0 ∨ n ≠ 0 := by
      by_contra hboth
      refine hzero ⟨hlength.2 (by omega), Char.toNat_inj.1 ?_⟩
      show c.toNat = 48
      omega
    rw [if_neg hzero, Nat.add_comm, Nat.digits_add 10 (by decide) _ _ (by omega) hdigit,
      List.length_cons]

/-- A text is cut where a number ends. -/
theorem longestFrom_append {as bs : List Char} (hbs : ∀ c ∈ bs.head?, c.isDigit = false)
    (current : Nat) :
    longestFrom current (as ++ bs) = max (longestFrom current as) (longest bs) := by
  induction as generalizing current with
  | nil =>
    cases bs with
    | nil => exact (Nat.max_zero current).symm
    | cons c cs =>
      have hc : ¬ c.isDigit = true := by simp [hbs c rfl]
      rw [List.nil_append, longest, longestFrom, longestFrom, longestFrom, if_neg hc, if_neg hc,
        Nat.zero_max]
  | cons d ds ih =>
    rw [List.cons_append, longestFrom, longestFrom]
    by_cases hd : d.isDigit = true
    · rw [if_pos hd, if_pos hd, ih]
    · rw [if_neg hd, if_neg hd, ih, Nat.max_assoc]

/-- Digits go on the number before them. -/
theorem longestFrom_digits {ds : List Char} (hds : ∀ c ∈ ds, c.isDigit = true) (n : Nat) :
    longestFrom (Nat.digits 10 n).length ds =
      (Nat.digits 10 (Nat.ofDigitChars 10 ds n)).length := by
  induction ds generalizing n with
  | nil => rfl
  | cons d ds ih =>
    obtain ⟨hd, hds⟩ := List.forall_mem_cons.1 hds
    rw [longestFrom, if_pos hd, ← length_digits_append hd, ih hds, Nat.ofDigitChars_cons]
    rfl

theorem longest_digits {ds : List Char} (hds : ∀ c ∈ ds, c.isDigit = true) :
    longest ds = (Nat.digits 10 (natural ds)).length := longestFrom_digits hds 0

theorem longest_of_isNumeral {t : List Char} (ht : IsNumeral t) :
    longest t = max (Nat.digits 10 (natural (whole t))).length
      (Nat.digits 10 (natural (fraction t))).length := by
  cases ht with
  | whole h =>
    rw [whole_of_digits h, fraction_of_digits h, longest_digits h.2]
    exact (Nat.max_zero _).symm
  | @point ds es h h' =>
    have hpoint : longest ('.' :: es) = longest es := Nat.zero_max _
    rw [whole_append_point h, fraction_append_point h, ← longest_digits h.2,
      ← longest_digits h'.2, ← hpoint]
    exact longestFrom_append (forall_head_cons rfl) 0

/-- A number token is written if neither its whole part nor its fraction is too long, zeros in
front of them not counted. -/
theorem longest_le_iff {t : List Char} (ht : IsNumeral t) :
    longest t ≤ digitLimit ↔
      natural (whole t) < 10 ^ digitLimit ∧ natural (fraction t) < 10 ^ digitLimit := by
  rw [longest_of_isNumeral ht, Nat.max_le, Nat.digits_length_le_iff (by decide),
    Nat.digits_length_le_iff (by decide)]

end Numeral

/-! ## Shortest texts -/

/-- A number token without superfluous zeros in front of its whole part and after its fraction. -/
structure IsCanonical (t : List Char) : Prop where
  isNumeral : IsNumeral t
  whole : ∀ ds, Literal.whole t = '0' :: ds → ds = []
  fraction : ∀ ds, Literal.fraction t ≠ ds ++ ['0']

namespace Decimal
open Literal

/-- The last place is needed. -/
def Reduced (d : Decimal) : Prop := d.places ≠ 0 → d.digits % 10 ≠ 0

theorem whole_text (d : Decimal) : whole d.text = Nat.toDigits 10 (d.digits / d.unit) := by
  have hdigits := allDigits_toDigits (d.digits / d.unit)
  unfold text
  dsimp only
  split
  · exact whole_of_digits hdigits
  · exact whole_append_point hdigits _

theorem fraction_text (d : Decimal) :
    fraction d.text = if d.places = 0 then [] else padded d.places (d.digits % d.unit) := by
  have hdigits := allDigits_toDigits (d.digits / d.unit)
  unfold text
  dsimp only
  split
  · exact fraction_of_digits hdigits
  · exact fraction_append_point hdigits _

theorem length_fraction_text (d : Decimal) : (fraction d.text).length = d.places := by
  rw [fraction_text]
  split
  · rename_i hplaces
    exact hplaces.symm
  · rename_i hplaces
    exact length_padded (Nat.pos_of_ne_zero hplaces) (Nat.mod_lt _ (Nat.pow_pos (by decide)))

theorem point_mem_text (d : Decimal) : '.' ∈ d.text ↔ d.places ≠ 0 := by
  unfold text
  by_cases hplaces : d.places = 0
  · simp [hplaces, not_mem_point (allDigits_toDigits _)]
  · simp [hplaces]

/-- A zero at the end of the fraction is a zero at the end of all digits. -/
theorem digits_mod_ten {d : Decimal} (hplaces : d.places ≠ 0) {ds : List Char}
    (h : padded d.places (d.digits % d.unit) = ds ++ ['0']) : d.digits % 10 = 0 := by
  obtain ⟨k, hk⟩ := Nat.exists_eq_succ_of_ne_zero hplaces
  have hnatural : d.digits % d.unit = natural ds * 10 := by
    rw [← natural_padded d.places (d.digits % d.unit), h, natural_append]
    rfl
  have hunit : d.unit = 10 ^ k * 10 := by
    unfold unit
    rw [hk]
    rfl
  have hdigits : d.digits = (10 ^ k * (d.digits / d.unit) + natural ds) * 10 := by
    rw [Nat.add_mul, ← hnatural, Nat.mul_right_comm, ← hunit, Nat.div_add_mod]
  rw [hdigits, Nat.mul_mod_left]

theorem isCanonical_text {d : Decimal} (hd : d.Reduced) : IsCanonical d.text where
  isNumeral := isNumeral_text d
  whole ds hds := toDigits_eq_zero_cons ((whole_text d).symm.trans hds)
  fraction ds hds := by
    rw [fraction_text] at hds
    split at hds
    · exact List.append_ne_nil_of_right_ne_nil ds (List.cons_ne_nil _ _) hds.symm
    · rename_i hplaces
      exact hd hplaces (digits_mod_ten hplaces hds)

/-- Number tokens with the same value agree when both are scaled to integers. -/
theorem natural_mul_pow {d : Decimal} {t : List Char} (h : value t = value d.text) :
    natural (whole t ++ fraction t) * 10 ^ d.places = d.digits * 10 ^ (fraction t).length := by
  have hpos : ∀ k : Nat, (10 : ℚ) ^ k ≠ 0 := fun k => by positivity
  rw [value_text, value, div_eq_div_iff (hpos _) (hpos _)] at h
  exact_mod_cast h

/-- The same number has no token with fewer places. -/
theorem places_le {d : Decimal} (hd : d.Reduced) {t : List Char}
    (h : value t = value d.text) : d.places ≤ (fraction t).length := by
  have hscaled := natural_mul_pow h
  by_contra hlt
  obtain ⟨k, hk⟩ := Nat.exists_eq_add_of_lt (not_le.1 hlt)
  refine hd (by omega) ?_
  have hdigits : natural (whole t ++ fraction t) * 10 ^ k * 10 = d.digits := by
    refine Nat.eq_of_mul_eq_mul_right (Nat.pow_pos (by decide : 0 < 10)) ?_
      (m := 10 ^ (fraction t).length)
    rw [← hscaled, hk]
    ring
  rw [← hdigits, Nat.mul_mod_left]

/-- Number tokens with the same value have the same whole part. -/
theorem natural_whole {d : Decimal} {t : List Char} (ht : IsNumeral t)
    (h : value t = value d.text) : natural (whole t) = d.digits / d.unit := by
  have hpos : ∀ k, 0 < 10 ^ k := fun k => Nat.pow_pos (by decide)
  have hfraction := natural_lt_pow (isDigit_of_mem_fraction ht)
  symm
  calc d.digits / d.unit
      = d.digits * 10 ^ (fraction t).length / (10 ^ d.places * 10 ^ (fraction t).length) :=
        (Nat.mul_div_mul_right _ _ (hpos _)).symm
    _ = natural (whole t ++ fraction t) * 10 ^ d.places /
          (10 ^ (fraction t).length * 10 ^ d.places) := by
        rw [natural_mul_pow h, Nat.mul_comm (10 ^ d.places)]
    _ = (natural (whole t) * 10 ^ (fraction t).length + natural (fraction t)) /
          10 ^ (fraction t).length := by
        rw [Nat.mul_div_mul_right _ _ (hpos _), natural_append]
    _ = natural (whole t) := by
        rw [Nat.mul_comm, Nat.mul_add_div (hpos _), Nat.div_eq_of_lt hfraction, Nat.add_zero]

/-- No number token for the same number is shorter. -/
theorem length_text_le {d : Decimal} (hd : d.Reduced) {t : List Char} (ht : IsNumeral t)
    (h : value t = value d.text) : d.text.length ≤ t.length := by
  have hwhole : (whole d.text).length ≤ (whole t).length := by
    rw [whole_text, ← natural_whole ht h]
    have hdigits := allDigits_whole ht
    exact (Nat.length_toDigits_le_iff (by decide) (List.length_pos_iff.2 hdigits.1)).2
      (natural_lt_pow hdigits.2)
  have hfraction : (fraction d.text).length ≤ (fraction t).length :=
    (length_fraction_text d).trans_le (places_le hd h)
  rw [length_of_isNumeral (isNumeral_text d), length_of_isNumeral ht]
  omega

end Decimal

/-! ## Rational numbers -/

namespace Rational
open Literal

/-- The primes that stand in the way of a decimal. -/
theorem places_eq_none_iff {n : Nat} (hn : 0 < n) :
    places? n = none ↔ ∃ p, p.Prime ∧ p ∣ n ∧ p ≠ 2 ∧ p ≠ 5 := by
  obtain ⟨htwo, hpos, hodd⟩ := factorOut_spec (by decide : 1 < 2) hn
  obtain ⟨hfive, -, hrest⟩ := factorOut_spec (by decide : 1 < 5) hpos
  constructor
  · intro hnone
    have hone : (factorOut 5 (factorOut 2 n).2).2 ≠ 1 := by
      intro hone
      unfold places? at hnone
      dsimp only at hnone
      rw [if_pos hone] at hnone
      cases hnone
    obtain ⟨p, hp, hdvd⟩ := Nat.exists_prime_and_dvd hone
    have hdvd' : p ∣ (factorOut 2 n).2 := hdvd.trans (Dvd.intro_left _ hfive.symm)
    refine ⟨p, hp, hdvd'.trans (Dvd.intro_left _ htwo.symm), ?_, ?_⟩
    · rintro rfl
      exact hodd hdvd'
    · rintro rfl
      exact hrest hdvd
  · intro hprime
    obtain ⟨p, hp, hdvd, hne, hne'⟩ := hprime
    rw [Option.eq_none_iff_forall_ne_some]
    intro k hk
    obtain ⟨a, b, rfl, -⟩ := places_eq_some hn hk
    rcases (Nat.Prime.dvd_mul hp).1 hdvd with hdvd | hdvd
    · exact hne ((Nat.prime_dvd_prime_iff_eq hp Nat.prime_two).1 (hp.dvd_of_dvd_pow hdvd))
    · exact hne' ((Nat.prime_dvd_prime_iff_eq hp Nat.prime_five).1 (hp.dvd_of_dvd_pow hdvd))

theorem le_of_pow_dvd {p q a j : Nat} (hp : 1 < p) (hpq : Nat.Coprime p q)
    (h : p ^ a ∣ (p * q) ^ j) : a ≤ j := by
  rw [Nat.mul_pow] at h
  exact (Nat.pow_dvd_pow_iff_le_right hp).1 ((hpq.pow a j).dvd_of_dvd_mul_right h)

/-- The places are the fewest. -/
theorem places_le_of_dvd {n k j : Nat} (hn : 0 < n) (hk : places? n = some k) (h : n ∣ 10 ^ j) :
    k ≤ j := by
  obtain ⟨a, b, rfl, rfl⟩ := places_eq_some hn hk
  refine Nat.max_le.2 ⟨?_, ?_⟩
  · exact @le_of_pow_dvd 2 5 a j (by decide) (by decide) ((Nat.dvd_mul_right _ _).trans h)
  · exact @le_of_pow_dvd 5 2 b j (by decide) (by decide) ((Nat.dvd_mul_left _ _).trans h)

theorem places_eq_zero_iff {n k : Nat} (hn : 0 < n) (hk : places? n = some k) :
    k = 0 ↔ n = 1 := by
  constructor
  · rintro rfl
    exact Nat.dvd_one.1 (dvd_of_places hn hk)
  · rintro rfl
    exact Nat.le_zero.1 (places_le_of_dvd hn hk (Nat.one_dvd _))

variable {r : Rat}

theorem value_of_decimal {d : Decimal} (h : decimal? r = some d) : value d.text = |r| := by
  obtain ⟨k, hk, rfl⟩ := Option.map_eq_some_iff.1 h
  rw [Decimal.value_text]
  exact digits_div_unit hk

/-- The decimal of a number has no superfluous place: without it the denominator would divide a
lower power of ten. -/
theorem reduced_of_decimal {d : Decimal} (h : decimal? r = some d) : d.Reduced := by
  have hvalue := value_of_decimal h
  obtain ⟨k, hk, rfl⟩ := Option.map_eq_some_iff.1 h
  intro hplaces hlast
  dsimp only at hplaces hlast
  rw [Decimal.value_text] at hvalue
  dsimp only at hvalue
  obtain ⟨j, rfl⟩ := Nat.exists_eq_succ_of_ne_zero hplaces
  obtain ⟨n, hn⟩ := Nat.dvd_of_mod_eq_zero hlast
  have habs : |r| = ((n : ℤ) : ℚ) / 10 ^ j := by
    rw [← hvalue, hn, Nat.cast_mul, pow_succ', Nat.cast_ofNat, Int.cast_natCast,
      mul_div_mul_left _ _ (by norm_num)]
  have hdvd : r.den ∣ 10 ^ j := by
    rw [← Rat.den_abs_eq_den, habs]
    exact den_dvd_ten_pow n j
  exact absurd (places_le_of_dvd r.den_pos hk hdvd) (Nat.not_succ_le_self j)

/-! ## Signed texts -/

/-- The minus sign of a negative number. -/
def minusSign (r : Rat) : List Char := if r < 0 then ['-'] else []

/-- The text denotes the number in decimal notation: a number token its value, and a minus sign
with a number token the opposite. -/
inductive Notates : List Char → Rat → Prop
  | plain {t : List Char} (ht : IsNumeral t) : Notates t (value t)
  | minus {t : List Char} (ht : IsNumeral t) : Notates ('-' :: t) (-value t)

/-- Behind the sign of `r`, the text `t` is the exact decimal of `r`: no zero is superfluous, there
is a fraction exactly if `r` is no integer, and no text for `r` is shorter. -/
structure IsExact (r : Rat) (t : List Char) : Prop where
  isCanonical : IsCanonical t
  notates : Notates (minusSign r ++ t) r
  point : '.' ∈ t ↔ r.den ≠ 1
  shortest : ∀ t', Notates t' r → (minusSign r ++ t).length ≤ t'.length

theorem value_nonneg (t : List Char) : 0 ≤ value t :=
  div_nonneg (Nat.cast_nonneg _) (pow_nonneg (by norm_num) _)

theorem decimalText_eq (r : Rat) :
    decimalText? r = (decimal? r).map fun d => minusSign r ++ d.text := by
  unfold decimalText? minusSign
  by_cases hr : r < 0
  · rw [if_pos hr]
    simp only [Rat.num_neg.2 hr, if_true]
    rfl
  · rw [if_neg hr]
    simp only [mt Rat.num_neg.1 hr, if_false]
    rfl

theorem notates_of_value {t : List Char} (ht : IsNumeral t) (h : value t = |r|) :
    Notates (minusSign r ++ t) r := by
  unfold minusSign
  by_cases hr : r < 0
  · have hvalue : -value t = r := by rw [h, abs_of_neg hr, neg_neg]
    rw [if_pos hr]
    exact hvalue ▸ Notates.minus ht
  · have hvalue : value t = r := h.trans (abs_of_nonneg (not_lt.1 hr))
    rw [if_neg hr]
    exact hvalue ▸ Notates.plain ht

/-- Nothing shorter denotes a number than its sign with the shortest text of its magnitude. -/
theorem shortest_of_value {t : List Char} (h : value t = |r|)
    (hshortest : ∀ t', IsNumeral t' → value t' = value t → t.length ≤ t'.length)
    {t' : List Char} (ht' : Notates t' r) : (minusSign r ++ t).length ≤ t'.length := by
  rw [List.length_append, minusSign]
  cases ht' with
  | plain ht' =>
    have hnonneg := value_nonneg t'
    rw [abs_of_nonneg hnonneg] at h
    rw [if_neg (not_lt.2 hnonneg), List.length_nil, Nat.zero_add]
    exact hshortest t' ht' h.symm
  | @minus t' ht' =>
    rw [abs_neg, abs_of_nonneg (value_nonneg t')] at h
    have hle := hshortest t' ht' h.symm
    rw [List.length_cons]
    split <;> simp <;> omega

theorem isExact_of_decimal {d : Decimal} (h : decimal? r = some d) : IsExact r d.text where
  isCanonical := Decimal.isCanonical_text (reduced_of_decimal h)
  notates := notates_of_value (Decimal.isNumeral_text d) (value_of_decimal h)
  point := by
    obtain ⟨k, hk, rfl⟩ := Option.map_eq_some_iff.1 h
    exact (Decimal.point_mem_text _).trans (not_congr (places_eq_zero_iff r.den_pos hk))
  shortest _ := shortest_of_value (value_of_decimal h)
    fun _ => Decimal.length_text_le (reduced_of_decimal h)

/-- A sign is no part of a number that is written. -/
theorem written_of_sign (r : Rat) {t : List Char} (ht : IsNumeral t) :
    Numeral.written (minusSign r ++ t) =
      if natural (whole t) < 10 ^ digitLimit ∧ natural (fraction t) < 10 ^ digitLimit then
        .ok (minusSign r ++ t)
      else .error {} := by
  have hlongest : Numeral.longest (minusSign r ++ t) = Numeral.longest t := by
    unfold minusSign
    split
    · exact Nat.zero_max _
    · rfl
  unfold Numeral.written
  rw [hlongest]
  exact if_congr (Numeral.longest_le_iff ht) rfl rfl

/-- The sign and the magnitude are read back. -/
theorem readFraction_of_value {t : List Char} (ht : IsNumeral t) (h : value t = |r|)
    (hruns : ShortRuns (minusSign r ++ t)) :
    Numeral.readFraction (minusSign r ++ t) = .ok r := by
  obtain ⟨hwhole, hfraction⟩ : Accepts .rational t :=
    accepts_of_shortRuns (by decide) ht nofun (hruns.mono (List.suffix_append _ _).isInfix)
  have hscanned := toRat_scanned t
  rw [if_pos hwhole, if_pos hfraction] at hscanned
  unfold minusSign
  by_cases hr : r < 0
  · have hvalue : -value t = r := by rw [h, abs_of_neg hr, neg_neg]
    rw [if_pos hr, List.singleton_append, @readFraction_of_sign ('-' :: t) t true rfl ht,
      hscanned, ← hvalue]
    rfl
  · rw [if_neg hr, List.nil_append, readFraction_of_isNumeral ht, hscanned, h,
      abs_of_nonneg (not_lt.1 hr)]

/-! ## The text of a rational number -/

theorem decimalText_eq_none_iff (r : Rat) :
    decimalText? r = none ↔ ∃ p, p.Prime ∧ p ∣ r.den ∧ p ≠ 2 ∧ p ≠ 5 := by
  rw [← places_eq_none_iff r.den_pos, decimalText?, decimal?, Option.map_eq_none_iff,
    Option.map_eq_none_iff]

/-- A rational number has no decimal text exactly when a prime other than 2 and 5 divides its
denominator. Any other one has an exact decimal. Its text is given out if neither its whole part nor
its fraction, taken as an integer, is too long to be written, and it is read back if it has no long
run of digits. -/
theorem exact_decimal_text (r : Rat) :
    (decimalText? r = none ↔ ∃ p, p.Prime ∧ p ∣ r.den ∧ p ≠ 2 ∧ p ≠ 5) ∧
    ((∀ p, p.Prime → p ∣ r.den → p = 2 ∨ p = 5) →
      ∃ t, decimalText? r = some (minusSign r ++ t) ∧ IsExact r t ∧
        Numeral.written (minusSign r ++ t) =
          (if natural (whole t) < 10 ^ digitLimit ∧ natural (fraction t) < 10 ^ digitLimit then
            .ok (minusSign r ++ t)
          else .error {}) ∧
        (ShortRuns (minusSign r ++ t) → Numeral.readFraction (minusSign r ++ t) = .ok r)) := by
  refine ⟨decimalText_eq_none_iff r, fun hprimes => ?_⟩
  have hsome : decimal? r ≠ none := by
    intro hnone
    have htext : decimalText? r = none := by rw [decimalText?, hnone, Option.map_none]
    obtain ⟨p, hp, hdvd, htwo, hfive⟩ := (decimalText_eq_none_iff r).1 htext
    exact (hprimes p hp hdvd).elim htwo hfive
  obtain ⟨d, hd⟩ := Option.ne_none_iff_exists'.1 hsome
  refine ⟨d.text, ?_, isExact_of_decimal hd, written_of_sign r (Decimal.isNumeral_text d),
    readFraction_of_value (Decimal.isNumeral_text d) (value_of_decimal hd)⟩
  rw [decimalText_eq, hd, Option.map_some]

/-- A negative number below one, whose fraction starts with a zero. -/
theorem exact_decimal_text_negative :
    let r : Rat := -3 / 40
    let t := ['0', '.', '0', '7', '5']
    (∀ p, p.Prime → p ∣ r.den → p = 2 ∨ p = 5) ∧ decimalText? r = some ('-' :: t) ∧ IsExact r t ∧
      Numeral.written ('-' :: t) = .ok ('-' :: t) ∧ Numeral.readFraction ('-' :: t) = .ok r := by
  intro r t
  have htext : decimalText? r = some ('-' :: t) := by
    show decimalText? (-3 / 40) = some ['-', '0', '.', '0', '7', '5']
    cbv
  have hsign : minusSign r = ['-'] := if_pos (by norm_num)
  obtain ⟨hnone, hsome⟩ := exact_decimal_text r
  have hprimes : ∀ p, p.Prime → p ∣ r.den → p = 2 ∨ p = 5 := by
    intro p hp hdvd
    by_contra hother
    rw [not_or] at hother
    rw [hnone.2 ⟨p, hp, hdvd, hother⟩] at htext
    cases htext
  obtain ⟨t', ht', hexact, hwritten, hread⟩ := hsome hprimes
  obtain rfl : t' = t := by
    rw [htext, hsign] at ht'
    exact (List.cons.inj (Option.some.inj ht')).2.symm
  rw [hsign] at hwritten hread
  refine ⟨hprimes, htext, hexact, ?_, hread (shortRuns_of_length_le (by decide))⟩
  exact hwritten.trans (if_pos (by decide +kernel))

/-! ## Numbers that are too long -/

theorem places_two_pow (k : Nat) : places? (2 ^ k) = some k := by
  have hpos : 0 < 2 ^ k := Nat.pow_pos (by decide)
  obtain ⟨j, hj⟩ := (places_isSome_iff hpos).2 ⟨k, 0, (Nat.mul_one _).symm⟩
  have hle : j ≤ k := places_le_of_dvd hpos hj (pow_dvd_pow_of_dvd (by decide) k)
  have hge : k ≤ j := @le_of_pow_dvd 2 5 k j (by decide) (by decide) (dvd_of_places hpos hj)
  rw [hj, Nat.le_antisymm hle hge]

/-- The fraction of the inverse of a power of two has the digits of the power of five. -/
theorem decimal_inv_two_pow (k : Nat) : decimal? ((2 ^ k : Nat) : Rat)⁻¹ = some ⟨5 ^ k, k⟩ := by
  have hpos : 0 < 2 ^ k := Nat.pow_pos (by decide)
  have hdigits : 1 * Nat.pow 10 k / 2 ^ k = 5 ^ k := by
    rw [Nat.one_mul, (by rfl : Nat.pow 10 k = (2 * 5) ^ k), Nat.mul_pow,
      Nat.mul_div_cancel_left _ hpos]
  unfold decimal?
  rw [Rat.inv_natCast_den_of_pos hpos, Rat.inv_natCast_num_of_pos hpos, places_two_pow]
  exact congrArg some (congrArg (Decimal.mk · k) hdigits)

/-- A text whose fraction is too long to be written is not given out. -/
theorem written_inv_two_pow {k : Nat} (hk : 10 ^ digitLimit ≤ 5 ^ k) :
    (decimalText? ((2 ^ k : Nat) : Rat)⁻¹).map Numeral.written = some (.error {}) := by
  have hne : k ≠ 0 := by
    rintro rfl
    exact absurd hk (by decide +kernel)
  have hlt : 5 ^ k < 10 ^ k := Nat.pow_lt_pow_left (by decide) hne
  have hfraction : natural (fraction (Decimal.text ⟨5 ^ k, k⟩)) = 5 ^ k := by
    rw [Decimal.fraction_text, if_neg hne, Decimal.natural_padded]
    exact Nat.mod_eq_of_lt hlt
  rw [decimalText_eq, decimal_inv_two_pow, Option.map_some, Option.map_some,
    written_of_sign _ (Decimal.isNumeral_text _), hfraction]
  exact congrArg some (if_neg fun hshort => absurd hshort.2 (not_lt.2 hk))

theorem eq_two_of_dvd_den {k p : Nat} (hp : p.Prime) (h : p ∣ ((2 ^ k : Nat) : Rat)⁻¹.den) :
    p = 2 := by
  rw [Rat.inv_natCast_den_of_pos (Nat.pow_pos (by decide))] at h
  exact (Nat.prime_dvd_prime_iff_eq hp Nat.prime_two).1 (hp.dvd_of_dvd_pow h)

/-- The denominator is a power of two, but the text is refused: its fraction has 4334 digits behind
the zeros. -/
theorem decimal_text_refused :
    let r : Rat := ((2 ^ 6200 : Nat) : Rat)⁻¹
    (∀ p, p.Prime → p ∣ r.den → p = 2 ∨ p = 5) ∧
      (decimalText? r).map Numeral.written = some (.error {}) :=
  ⟨fun _ hp hdvd => .inl (eq_two_of_dvd_den hp hdvd), written_inv_two_pow (by decide +kernel)⟩

end Rational
end Multipoly
