import Mathlib.Algebra.Order.Field.Basic
import Mathlib.Data.Nat.Prime.Basic
import Mathlib.Tactic.NormNum
import Multipoly.Proofs.Literal

/-!
# The texts of exact numbers

A rational number whose denominator has no primes but 2 and 5 is written as a decimal, and the
decimal denotes it; any other one is written as a quotient.

Results:
* `Rational.places_isSome_iff`: which denominators have decimals;
* `Decimal.value_text`: the text of a decimal denotes it;
* `Rational.display_of_terminates`, `Rational.display_of_not_terminates`: the two ways in which a
  magnitude is written.
-/
namespace Multipoly

theorem Literal.allDigits_toDigits (n : Nat) : AllDigits (Nat.toDigits 10 n) :=
  ⟨Nat.toDigits_ne_nil, fun _ hc => Nat.isDigit_of_mem_toDigits (by decide) (by decide) hc⟩

namespace Rational

/-! ## Denominators -/

/-- The number is a power of `p` times what is left of it, and `p` does not divide that. -/
theorem factorOut_spec {p : Nat} (hp : 1 < p) {n : Nat} (hn : 0 < n) :
    n = p ^ (factorOut p n).1 * (factorOut p n).2 ∧ 0 < (factorOut p n).2 ∧
      ¬ p ∣ (factorOut p n).2 := by
  induction n using Nat.strongRecOn with
  | ind n ih =>
    rw [factorOut]
    by_cases h : 1 < p ∧ 0 < n ∧ n % p = 0
    · rw [dif_pos h]
      have hdvd : p ∣ n := Nat.dvd_of_mod_eq_zero h.2.2
      have hdiv : 0 < n / p := Nat.div_pos (Nat.le_of_dvd hn hdvd) (by omega)
      obtain ⟨heq, hpos, hndvd⟩ := ih (n / p) (Nat.div_lt_self hn hp) hdiv
      refine ⟨?_, hpos, hndvd⟩
      show n = p ^ ((factorOut p (n / p)).1 + 1) * (factorOut p (n / p)).2
      rw [Nat.pow_succ', Nat.mul_assoc, ← heq, Nat.mul_div_cancel' hdvd]
    · rw [dif_neg h]
      refine ⟨by simp, hn, fun hdvd => h ⟨hp, hn, Nat.mod_eq_zero_of_dvd hdvd⟩⟩

/-- A number without the primes 2 and 5 that divides a product of their powers is one. -/
theorem eq_one_of_dvd {r a b : Nat} (h2 : ¬ 2 ∣ r) (h5 : ¬ 5 ∣ r) (h : r ∣ 2 ^ a * 5 ^ b) :
    r = 1 := by
  have hr2 : Nat.Coprime r (2 ^ a) :=
    ((Nat.Prime.coprime_iff_not_dvd Nat.prime_two).2 h2).symm.pow_right a
  have hr5 : Nat.Coprime r (5 ^ b) :=
    ((Nat.Prime.coprime_iff_not_dvd Nat.prime_five).2 h5).symm.pow_right b
  exact (hr2.mul_right hr5).eq_one_of_dvd h

/-- The places are the higher of the powers of two and five that make up the denominator. -/
theorem places_eq_some {n k : Nat} (hn : 0 < n) (h : places? n = some k) :
    ∃ a b, n = 2 ^ a * 5 ^ b ∧ k = max a b := by
  obtain ⟨htwo, hpos, -⟩ := factorOut_spec (by decide : 1 < 2) hn
  obtain ⟨hfive, -, -⟩ := factorOut_spec (by decide : 1 < 5) hpos
  unfold places? at h
  dsimp only at h
  split at h
  · rename_i hone
    cases h
    rw [hone, Nat.mul_one] at hfive
    exact ⟨_, _, by rw [← hfive]; exact htwo, rfl⟩
  · cases h

/-- Exactly the products of powers of two and five have a number of places. -/
theorem places_isSome_iff {n : Nat} (hn : 0 < n) :
    (∃ k, places? n = some k) ↔ ∃ a b, n = 2 ^ a * 5 ^ b := by
  constructor
  · intro hplaces
    obtain ⟨k, hk⟩ := hplaces
    obtain ⟨a, b, hab, -⟩ := places_eq_some hn hk
    exact ⟨a, b, hab⟩
  · intro hpowers
    obtain ⟨a, b, hab⟩ := hpowers
    obtain ⟨htwo, hpos, hodd⟩ := factorOut_spec (by decide : 1 < 2) hn
    obtain ⟨hfive, -, hrest⟩ := factorOut_spec (by decide : 1 < 5) hpos
    -- What is left without twos and fives divides the product, so it is one.
    have hdvd : (factorOut 5 (factorOut 2 n).2).2 ∣ (factorOut 2 n).2 :=
      Dvd.intro_left _ hfive.symm
    have hone := @eq_one_of_dvd _ a b (fun h => hodd (Nat.dvd_trans h hdvd)) hrest
      (hab ▸ Nat.dvd_trans hdvd (Dvd.intro_left _ htwo.symm))
    exact ⟨_, if_pos hone⟩

/-- A denominator divides the power of ten of its places. -/
theorem dvd_of_places {n k : Nat} (hn : 0 < n) (h : places? n = some k) : n ∣ 10 ^ k := by
  obtain ⟨a, b, rfl, rfl⟩ := places_eq_some hn h
  rw [(by rfl : 10 = 2 * 5), Nat.mul_pow]
  exact Nat.mul_dvd_mul (Nat.pow_dvd_pow 2 (Nat.le_max_left a b))
    (Nat.pow_dvd_pow 5 (Nat.le_max_right a b))

theorem exists_cofactor {n k : Nat} (hn : 0 < n) (h : places? n = some k) :
    ∃ c, c ≠ 0 ∧ 10 ^ k = n * c := by
  obtain ⟨c, hc⟩ := dvd_of_places hn h
  refine ⟨c, ?_, hc⟩
  intro hzero
  rw [hzero, Nat.mul_zero] at hc
  exact (Nat.pow_pos (by decide)).ne' hc

end Rational

/-! ## Decimals -/

namespace Decimal
open Literal

theorem isDigit_of_mem_padded {width n : Nat} {c : Char} (h : c ∈ padded width n) :
    c.isDigit = true := by
  unfold padded List.leftpad at h
  rcases List.mem_append.1 h with h | h
  · rw [List.eq_of_mem_replicate h]
    rfl
  · exact (allDigits_toDigits n).2 c h

theorem length_padded {width n : Nat} (hw : 0 < width) (hn : n < 10 ^ width) :
    (padded width n).length = width := by
  have hle := (Nat.length_toDigits_le_iff (by decide : 1 < 10) hw).2 hn
  unfold padded
  rw [List.length_leftpad]
  omega

theorem natural_zeros (k : Nat) : natural (List.replicate k '0') = 0 := by
  induction k with
  | zero => rfl
  | succ k ih => rw [List.replicate_succ', natural_append, ih]; rfl

theorem natural_padded (width n : Nat) : natural (padded width n) = n := by
  unfold padded List.leftpad
  rw [natural_append, natural_zeros, Nat.zero_mul, Nat.zero_add, natural_toDigits]

theorem isNumeral_text (d : Decimal) : IsNumeral d.text := by
  unfold text
  by_cases hplaces : d.places = 0
  · rw [if_pos hplaces]
    exact .whole (allDigits_toDigits _)
  · rw [if_neg hplaces]
    refine .point (allDigits_toDigits _) ⟨?_, fun c hc => isDigit_of_mem_padded hc⟩
    unfold padded List.leftpad
    simp [Nat.toDigits_ne_nil]

/-- The text of a decimal denotes it. -/
theorem value_text (d : Decimal) : value d.text = d.digits / 10 ^ d.places := by
  unfold text
  by_cases hplaces : d.places = 0
  · rw [if_pos hplaces]
    have hdigits := allDigits_toDigits (d.digits / d.unit)
    rw [value, whole_of_digits hdigits, fraction_of_digits hdigits, List.append_nil,
      natural_toDigits, unit, hplaces]
    simp
  · rw [if_neg hplaces]
    have hdigits := allDigits_toDigits (d.digits / d.unit)
    have hlt : d.digits % d.unit < 10 ^ d.places := Nat.mod_lt _ (Nat.pow_pos (by decide))
    rw [value, whole_append_point hdigits, fraction_append_point hdigits, natural_append,
      length_padded (Nat.pos_of_ne_zero hplaces) hlt, natural_padded, natural_toDigits]
    have hsplit : d.digits / d.unit * 10 ^ d.places + d.digits % d.unit = d.digits :=
      Nat.div_add_mod' d.digits d.unit
    rw [hsplit]

end Decimal

/-! ## Magnitudes -/

namespace Rational
open Literal

/-- A rational number that is a decimal. -/
def Terminates (q : Rat) : Prop := ∃ a b, q.den = 2 ^ a * 5 ^ b

theorem terminates_abs {q : Rat} : Terminates |q| ↔ Terminates q := by
  rw [Terminates, Rat.den_abs_eq_den]
  rfl

theorem terminates_intCast (n : Int) : Terminates n := ⟨0, 0, rfl⟩

/-- In lowest terms the denominator still divides the power of ten. -/
theorem den_dvd_ten_pow (n : ℤ) (k : ℕ) : ((n : ℚ) / 10 ^ k).den ∣ 10 ^ k := by
  have h := Rat.den_dvd n (10 ^ k)
  rw [Rat.divInt_eq_div] at h
  exact_mod_cast h

/-- The magnitude in units of the last place, which the denominator divides. -/
theorem digits_div_unit {q : Rat} {k : Nat} (hk : places? q.den = some k) :
    ((q.num.natAbs * Nat.pow 10 k / q.den : Nat) : ℚ) / 10 ^ k = |q| := by
  obtain ⟨c, hc0, hc⟩ := exists_cofactor q.den_pos hk
  have hdigits : q.num.natAbs * Nat.pow 10 k / q.den = q.num.natAbs * c := by
    rw [(by rfl : Nat.pow 10 k = 10 ^ k), hc, Nat.mul_left_comm,
      Nat.mul_div_cancel_left _ q.den_pos]
  have hunit : (10 : ℚ) ^ k = q.den * c := by exact_mod_cast hc
  have hnatAbs : (q.num.natAbs : ℚ) = |(q.num : ℚ)| := by
    rw [Nat.cast_natAbs, Int.cast_abs]
  have hden : (q.den : ℚ) = |(q.den : ℚ)| := (abs_of_nonneg (Nat.cast_nonneg _)).symm
  rw [hdigits, hunit, Nat.cast_mul, hnatAbs, mul_div_mul_right _ _ (Nat.cast_ne_zero.2 hc0), hden,
    ← abs_div, Rat.num_div_den]

/-- A decimal is written as a number token that denotes it. -/
theorem display_of_terminates {q : Rat} (hq : 0 ≤ q) (h : Terminates q) :
    IsNumeral (display q) ∧ value (display q) = q := by
  obtain ⟨k, hk⟩ := (places_isSome_iff q.den_pos).2 h
  have hnum : 0 ≤ q.num := Rat.num_nonneg.2 hq
  have htext : display q = Decimal.text ⟨q.num.natAbs * Nat.pow 10 k / q.den, k⟩ := by
    unfold display decimalText? decimal?
    rw [hk]
    simp only [Option.map_some, Option.getD_some]
    rw [if_neg (by omega)]
  rw [htext]
  refine ⟨Decimal.isNumeral_text _, ?_⟩
  rw [Decimal.value_text, digits_div_unit hk, abs_of_nonneg hq]

/-- Any other magnitude is written as a quotient. -/
theorem display_of_not_terminates {q : Rat} (hq : 0 ≤ q) (h : ¬ Terminates q) :
    display q = Nat.toDigits 10 q.num.natAbs ++ '/' :: Nat.toDigits 10 q.den := by
  have hplaces : places? q.den = none := by
    rw [Option.eq_none_iff_forall_ne_some]
    intro k hk
    exact h ((places_isSome_iff q.den_pos).1 ⟨k, hk⟩)
  have hnum : 0 ≤ q.num := Rat.num_nonneg.2 hq
  have hden : q.den ≠ 1 := fun hone => h ⟨0, 0, hone⟩
  unfold display decimalText? decimal? text intText
  rw [hplaces]
  simp only [Option.map_none, Option.getD_none]
  rw [if_neg hden, if_neg (by omega)]

end Rational
end Multipoly
