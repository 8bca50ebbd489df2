import Multipoly.Proofs.ExactDecimals
import Multipoly.Proofs.UniqueText

/-!
# Texts that can be written

A text is refused when one of its numbers has more digits than the limit allows. The numbers of a
polynomial's text are those of its coefficients and exponents, for letters, signs and spaces keep
them apart. A double never has too many digits, so a real polynomial is refused for the size of an
exponent and for nothing else.

Results:
* `Numeral.writable_append`: a text that is cut between two numbers;
* `Binary64.writable_text`: the text of every double;
* `Poly.writable_text`: the text of a polynomial, by its coefficients and exponents;
* `Poly.write_eq_ok_iff`: which real polynomials can be written.
-/
namespace Multipoly

/-! ## Numbers of a text -/

namespace Numeral

/-- No number of the text is too long, zeros in front of it not counted. -/
def Writable (cs : List Char) : Prop := longest cs ≤ digitLimit

instance (cs : List Char) : Decidable (Writable cs) := inferInstanceAs (Decidable (_ ≤ _))

theorem writable_append {as bs : List Char} (hbs : ∀ c ∈ bs.head?, c.isDigit = false) :
    Writable (as ++ bs) ↔ Writable as ∧ Writable bs := by
  unfold Writable
  rw [longest, longestFrom_append hbs, Nat.max_le]
  rfl

theorem writable_cons {c : Char} (hc : c.isDigit = false) {cs : List Char} :
    Writable (c :: cs) ↔ Writable cs := by
  unfold Writable
  rw [longest, longestFrom, if_neg (by simp [hc]), Nat.zero_max]
  rfl

theorem writable_nil : Writable [] := Nat.zero_le _

theorem writable_toDigits {n : Nat} : Writable (Nat.toDigits 10 n) ↔ n < 10 ^ digitLimit := by
  have hdigits := Literal.allDigits_toDigits n
  unfold Writable
  rw [longest_le_iff (.whole hdigits), Literal.whole_of_digits hdigits,
    Literal.fraction_of_digits hdigits, Literal.natural_toDigits]
  exact and_iff_left (Nat.pow_pos (by decide))

end Numeral

open Numeral

/-! ## Doubles -/

theorem Decimal.writable_text {d : Decimal} (h : d.digits < 10 ^ digitLimit) :
    Writable d.text := by
  refine (longest_le_iff d.isNumeral_text).2 ⟨?_, ?_⟩
  · rw [whole_text, Literal.natural_toDigits]
    exact Nat.lt_of_le_of_lt (Nat.div_le_self _ _) h
  · rw [fraction_text]
    split
    · exact Nat.pow_pos (by decide)
    · rw [natural_padded]
      exact Nat.lt_of_le_of_lt (Nat.mod_le _ _) h

theorem Decimal.digits_trim_le (digits places : Nat) : (trim digits places).digits ≤ digits := by
  induction places generalizing digits with
  | zero => exact Nat.le_refl _
  | succ places ih =>
    rw [trim]
    split
    · exact Nat.le_trans (ih _) (Nat.div_le_self _ _)
    · exact Nat.le_refl _

namespace Binary64

/-- The range of mantissas and exponents of finite doubles. -/
theorem bounds_of_decode {x : Float} {negative : Bool} {m : Nat} {e : Int}
    (h : decode x = .finite negative m e) : m < 2 ^ 53 ∧ -1074 ≤ e ∧ e ≤ 971 := by
  unfold decode at h
  dsimp only at h
  generalize x.toBits.toNat % signBit = bits at h
  split at h
  · cases h
  · split at h
    · cases h
    · -- The exponent field of infinity is the first that a finite double cannot have.
      have hbits : bits < 2047 * hiddenBit := by
        unfold infinityBits hiddenBit at *
        omega
      have hfield : bits / hiddenBit < 2047 := Nat.div_lt_of_lt_mul (Nat.mul_comm _ _ ▸ hbits)
      have hfraction : bits % hiddenBit < hiddenBit := Nat.mod_lt _ (by decide)
      unfold magnitude at h
      dsimp only at h
      unfold hiddenBit minExponent at *
      split at h <;> cases h <;> omega

theorem roundDiv_le (num den : Nat) : roundDiv num den ≤ num / den + 1 := by
  unfold roundDiv
  dsimp only
  split
  · omega
  · split <;> omega

/-- A neighbour of a double on a grid, bounded without the grid. -/
theorem onGrid_le {i : Interval} {scale : Int} {digits : Nat} (h : i.onGrid scale = some digits) :
    digits ≤ i.value * i.unitNum * powDen 10 scale + 1 := by
  have hround := roundDiv_le (i.value * i.unitNum * powDen 10 scale)
    (i.unitDen * powNum 10 scale)
  have hself := Nat.div_le_self (i.value * i.unitNum * powDen 10 scale)
    (i.unitDen * powNum 10 scale)
  unfold Interval.onGrid at h
  dsimp only at h
  split at h <;> cases h <;> omega

/-- The place of a quotient differs from the difference of two numbers of digits by one at most. -/
theorem place_bounds {num den k : Nat} (hk : 0 < k) (hnum : num < 10 ^ k) (hden : den < 10 ^ k) :
    -(k : Int) ≤ place num den ∧ place num den ≤ k := by
  have hpos : ∀ n, 0 < (Nat.toDigits 10 n).length := fun n =>
    List.length_pos_iff.2 (Nat.toDigits_ne_nil)
  have hnum := (Nat.length_toDigits_le_iff (by decide : 1 < 10) hk).2 hnum
  have hden := (Nat.length_toDigits_le_iff (by decide : 1 < 10) hk).2 hden
  have := hpos num
  have := hpos den
  unfold place
  dsimp only
  split <;> omega

theorem powNum_le {base n : Nat} {e : Int} (hbase : 0 < base) (h : e ≤ n) :
    powNum base e ≤ base ^ n := Nat.pow_le_pow_right hbase (by omega)

theorem powDen_le {base n : Nat} {e : Int} (hbase : 0 < base) (h : -e ≤ n) :
    powDen base e ≤ base ^ n := Nat.pow_le_pow_right hbase (by omega)

theorem two_pow_lt {n k : Nat} (h : n < 3 * k) : 2 ^ n < 10 ^ k :=
  calc 2 ^ n < 2 ^ (3 * k) := Nat.pow_lt_pow_right (by decide) h
    _ = 8 ^ k := pow_mul 2 3 k
    _ ≤ 10 ^ k := Nat.pow_le_pow_left (by decide) k

/-- The interval of a finite double in powers of ten. -/
theorem interval_bounds {m : Nat} {e : Int} (hm : m < 2 ^ 53) (he : -1074 ≤ e) (he' : e ≤ 971) :
    (Interval.of m e).value * (Interval.of m e).unitNum < 10 ^ 400 ∧
      (Interval.of m e).unitDen < 10 ^ 400 := by
  constructor
  · have hmantissa : 4 * m ≤ 2 ^ 55 := by omega
    have hnum : powNum 2 (e - 2) ≤ 2 ^ 969 := @powNum_le 2 969 (e - 2) (by decide) (by omega)
    calc 4 * m * powNum 2 (e - 2)
      _ ≤ 2 ^ 55 * 2 ^ 969 := Nat.mul_le_mul hmantissa hnum
      _ = 2 ^ (55 + 969) := (pow_add 2 55 969).symm
      _ < 10 ^ 400 := two_pow_lt (by decide)
  · have hden : powDen 2 (e - 2) ≤ 2 ^ 1076 := @powDen_le 2 1076 (e - 2) (by decide) (by omega)
    exact Nat.lt_of_le_of_lt hden (two_pow_lt (by decide))

/-- The shortest decimal stands on one of the grids that are tried, from the first significant digit
to the seventeenth. -/
theorem shortestScaled_onGrid (m : Nat) (e : Int) :
    shortestScaled m e = (0, 0) ∨ ∃ n < 17,
      (shortestScaled m e).2 =
        place ((Interval.of m e).value * (Interval.of m e).unitNum) (Interval.of m e).unitDen -
          (n + 1 : Nat) ∧
      (Interval.of m e).onGrid (shortestScaled m e).2 = some (shortestScaled m e).1 := by
  unfold shortestScaled
  dsimp only
  generalize place _ _ = k
  cases hfound : (List.range maxDigits).findSome? fun n =>
      ((Interval.of m e).onGrid (k - (n + 1 : Nat))).map (·, k - (n + 1 : Nat)) with
  | none => exact .inl rfl
  | some found =>
    obtain ⟨n, hn, hgrid⟩ := List.exists_of_findSome?_eq_some hfound
    obtain ⟨digits, hdigits, rfl⟩ := Option.map_eq_some_iff.1 hgrid
    exact .inr ⟨n, List.mem_range.1 hn, rfl, hdigits⟩

/-- The digits of a shortest decimal down to the last place. The bound is far from sharp. -/
theorem shortestScaled_le {m : Nat} {e : Int} (hm : m < 2 ^ 53) (he : -1074 ≤ e) (he' : e ≤ 971) :
    (shortestScaled m e).1 * powNum 10 (shortestScaled m e).2 ≤ 10 ^ (400 + 417 + 400) := by
  obtain ⟨hvalue, hunit⟩ := interval_bounds hm he he'
  obtain ⟨hlow, hhigh⟩ := place_bounds (by decide) hvalue hunit
  obtain hzero | ⟨n, hn, hscale, hgrid⟩ := shortestScaled_onGrid m e
  · rw [hzero]
    exact Nat.le_trans (Nat.le_of_eq (Nat.zero_mul _)) (Nat.zero_le _)
  · generalize shortestScaled m e = found at *
    obtain ⟨digits, scale⟩ := found
    have hden : powDen 10 scale ≤ 10 ^ 417 := @powDen_le 10 417 _ (by decide) (by omega)
    have hnum : powNum 10 scale ≤ 10 ^ 400 := @powNum_le 10 400 _ (by decide) (by omega)
    have hdigits : digits ≤ 10 ^ 400 * 10 ^ 417 :=
      Nat.le_trans (onGrid_le hgrid) (Nat.mul_lt_mul_of_lt_of_le hvalue hden (by positivity))
    calc digits * powNum 10 scale
      _ ≤ 10 ^ 400 * 10 ^ 417 * 10 ^ 400 := Nat.mul_le_mul hdigits hnum
      _ = 10 ^ (400 + 417 + 400) := by rw [pow_add, pow_add]

theorem digits_shortest_lt {m : Nat} {e : Int} (hm : m < 2 ^ 53) (he : -1074 ≤ e) (he' : e ≤ 971) :
    (shortest m e).digits < 10 ^ digitLimit := by
  have hlimit : 400 + 417 + 400 < digitLimit := by decide
  unfold shortest
  split
  · exact Nat.pow_pos (by decide)
  · calc _ ≤ (shortestScaled m e).1 * powNum 10 (shortestScaled m e).2 :=
          Decimal.digits_trim_le _ _
      _ ≤ 10 ^ (400 + 417 + 400) := shortestScaled_le hm he he'
      _ < 10 ^ digitLimit := pow_lt_pow_right₀ (by decide) hlimit

/-- Every double can be written. -/
theorem writable_text (x : Float) : Writable (text x) := by
  have hsign : ∀ (negative : Bool) {cs : List Char}, Writable cs →
      Writable (text.withSign negative cs) := by
    intro negative cs hcs
    cases negative with
    | false => exact hcs
    | true => exact (writable_cons rfl).2 hcs
  unfold text
  cases hdecode : decode x with
  | nan => show Writable ['n', 'a', 'n']; decide
  | infinite negative => exact hsign negative (by decide)
  | finite negative m e =>
    obtain ⟨hm, he, he'⟩ := bounds_of_decode hdecode
    exact hsign negative (Decimal.writable_text (digits_shortest_lt hm he he'))

end Binary64

/-! ## Terms -/

theorem writable_powerText {v : Char} (hv : v ∈ alphabet) {e : Nat} :
    Writable (Monomial.powerText v e) ↔ e < 10 ^ digitLimit := by
  have hletter := (letter_of_alphabet hv).2.2.1
  have hone : 1 < 10 ^ digitLimit := Nat.one_lt_pow (by decide) (by decide)
  unfold Monomial.powerText
  split
  · exact iff_of_true writable_nil (by omega)
  · split
    · exact iff_of_true ((writable_cons hletter).2 writable_nil) (by omega)
    · rw [writable_cons hletter, writable_cons rfl, writable_toDigits]

theorem writable_powersText {fs : List (Char × Nat)} (hfs : ∀ f ∈ fs, f.1 ∈ alphabet) :
    Writable (powersText fs) ↔ ∀ f ∈ fs, f.2 < 10 ^ digitLimit := by
  induction fs with
  | nil => exact iff_of_true writable_nil (List.forall_mem_nil _)
  | cons f fs ih =>
    obtain ⟨hf, hfs⟩ := List.forall_mem_cons.1 hfs
    have hhead : ∀ c ∈ (powersText fs).head?, c.isDigit = false := by
      intro c hc
      obtain ⟨g, hg, rfl⟩ := List.mem_map.1 (head_powersText c hc)
      exact (letter_of_alphabet (hfs g hg)).2.2.1
    rw [powersText_cons, writable_append hhead, writable_powerText hf, ih hfs,
      List.forall_mem_cons]

namespace Monomial
variable {R : PolyRing} {m : Monomial R}

theorem writable_variablesText (hm : m.Fits) :
    Writable m.variablesText ↔ ∀ e ∈ m.powers, e < 10 ^ digitLimit := by
  have hpowers : (R.vars.zip m.powers).map Prod.snd = m.powers :=
    List.map_snd_zip (Nat.le_of_eq hm)
  refine (writable_powersText fun f hf => R.mem_alphabet _ (mem_vars_of_mem_zip hf)).trans ?_
  rw [← List.forall_mem_map (P := fun e => e < 10 ^ digitLimit), hpowers]

theorem writable_magnitudeText :
    Writable m.magnitudeText ↔ Writable m.coefficientText ∧ Writable m.variablesText := by
  rw [magnitudeText_eq]
  exact writable_append fun c hc => (letter_of_alphabet (head_variablesText c hc)).2.2.1

theorem writable_text : Writable m.text ↔ Writable m.magnitudeText := by
  unfold text
  split
  · exact writable_cons rfl
  · exact Iff.rfl

end Monomial

theorem Domain.writable_text {d : Domain} (h : d = .real) (c : d.Carrier) :
    Writable (Coefficient.text c) := by
  subst h
  exact Binary64.writable_text c

/-- The coefficient of a real term never stands in the way. -/
theorem Monomial.writable_coefficientText {R : PolyRing} (h : R.domain = .real) (m : Monomial R) :
    Writable m.coefficientText := by
  unfold coefficientText
  split
  · exact writable_nil
  · exact Domain.writable_text h _

/-! ## Polynomials -/

namespace Poly
variable {R : PolyRing} {p : Poly R}

theorem head_restText (ms : List (Monomial R)) : ∀ c ∈ (restText ms).head?, c.isDigit = false := by
  have hends := endsNumber_restText ms Line.endsNumber_nil
  rw [List.append_nil] at hends
  exact fun c hc => (hends c hc).1

theorem writable_restText {ms : List (Monomial R)} :
    Writable (restText ms) ↔ ∀ m ∈ ms, Writable m.magnitudeText := by
  induction ms with
  | nil => exact iff_of_true writable_nil (List.forall_mem_nil _)
  | cons m ms ih =>
    have hsign : (if m.isNegative then '-' else '+').isDigit = false := by split <;> rfl
    rw [restText_cons, writable_append (head_restText ms), ih, List.forall_mem_cons, restText,
      List.flatMap_singleton, writable_cons rfl, writable_cons hsign, writable_cons rfl]

theorem writable_text :
    Writable p.text ↔ ∀ m ∈ p.nonzero, Writable m.coefficientText ∧ Writable m.variablesText := by
  simp only [← Monomial.writable_magnitudeText]
  cases hterms : p.nonzero with
  | nil =>
    rw [text, hterms]
    exact iff_of_true writable_nil (List.forall_mem_nil _)
  | cons m ms =>
    rw [text_of_nonzero hterms, writable_append (head_restText ms), Monomial.writable_text,
      writable_restText, List.forall_mem_cons]

/-- A real polynomial is written unless a non-zero term has an exponent of too many digits. -/
theorem write_eq_ok_iff (h : R.domain = .real) (hp : p.WellFormed) {cs : List Char} :
    p.write = .ok cs ↔ (∀ m ∈ p.nonzero, ∀ e ∈ m.powers, e < 10 ^ digitLimit) ∧ p.text = cs := by
  refine written_eq_ok_iff.trans (and_congr_left fun _ => writable_text.trans ?_)
  refine forall₂_congr fun m hm => ?_
  rw [Monomial.writable_variablesText (hp.prune.fits m hm)]
  exact and_iff_right (Monomial.writable_coefficientText h m)

end Poly
end Multipoly
