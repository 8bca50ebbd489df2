import Mathlib.Data.List.TakeWhile
import Mathlib.Data.Rat.Cast.Defs
import Multipoly.Coefficient

/-!
# Literals

What a number token denotes in each coefficient domain, said without the readers of free text: a
token is digits, or digits, a point and digits, and denotes the natural number of its digits
divided by the power of ten that the fraction has.

Results:
* `Literal.readInt_of_digits`: how an integer reader takes digits;
* `Literal.ofLiteral_eq_ok_iff`: a domain accepts exactly the number tokens in `Literal.Accepts`,
  and reads them as `Literal.number`.
-/
namespace Multipoly

/-- Digits, at least one. -/
def AllDigits (cs : List Char) : Prop := cs ≠ [] ∧ ∀ c ∈ cs, c.isDigit = true

/-- The texts of number tokens. -/
inductive IsNumeral : List Char → Prop
  | whole {ds : List Char} (h : AllDigits ds) : IsNumeral ds
  | point {ds es : List Char} (h : AllDigits ds) (h' : AllDigits es) : IsNumeral (ds ++ '.' :: es)

/-- A number token without a point is digits alone. -/
theorem IsNumeral.allDigits {t : List Char} (h : IsNumeral t) (hp : '.' ∉ t) : AllDigits t := by
  cases h with
  | whole h => exact h
  | point _ _ => exact absurd (List.mem_append_right _ List.mem_cons_self) hp

theorem IsNumeral.ne_nil {t : List Char} (ht : IsNumeral t) : t ≠ [] := by
  cases ht with
  | whole h => exact h.1
  | point h _ => exact List.append_ne_nil_of_left_ne_nil h.1 _

theorem IsNumeral.isDigit_or_point {t : List Char} (h : IsNumeral t) :
    ∀ c ∈ t, c.isDigit = true ∨ c = '.' := by
  cases h with
  | whole h => exact fun c hc => .inl (h.2 c hc)
  | point h h' =>
    refine List.forall_mem_append.2 ⟨fun c hc => .inl (h.2 c hc), ?_⟩
    exact List.forall_mem_cons.2 ⟨.inr rfl, fun c hc => .inl (h'.2 c hc)⟩

namespace Literal

/-! ## Values -/

/-- The natural number that digits denote. -/
def natural (ds : List Char) : Nat := Nat.ofDigitChars 10 ds 0

/-- The characters before the point. -/
def whole (t : List Char) : List Char := t.takeWhile (· ≠ '.')

/-- The characters after the point. -/
def fraction (t : List Char) : List Char := (t.dropWhile (· ≠ '.')).drop 1

/-- The number in decimal notation. -/
def value (t : List Char) : Rat := natural (whole t ++ fraction t) / 10 ^ (fraction t).length

/-- The double nearest to the number. -/
def nearest (t : List Char) : Float :=
  Binary64.ofDecimal false (natural (whole t ++ fraction t)) (-(fraction t).length)

/-- The number tokens that a domain accepts: integers have no point, no run of digits that is
converted exceeds the limit, and a real number has a finite double. -/
def Accepts : Domain → List Char → Prop
  | .integer, t => '.' ∉ t ∧ t.length ≤ digitLimit
  | .rational, t => (whole t).length ≤ digitLimit ∧ (fraction t).length ≤ digitLimit
  | .real, t => (nearest t).isFinite = true

/-- The number that a token denotes in a domain that accepts it. -/
def number : (d : Domain) → List Char → d.Carrier
  | .integer, t => (natural t : Int)
  | .rational, t => value t
  | .real, t => nearest t

/-- An exponent: digits alone, within the limit. -/
def IsExponent (t : List Char) : Prop := '.' ∉ t ∧ t.length ≤ digitLimit

/-! ## Digits -/

theorem toNat_bounds {c : Char} (h : c.isDigit = true) : 48 ≤ c.toNat ∧ c.toNat ≤ 57 := by
  simp only [Char.isDigit, Bool.and_eq_true, decide_eq_true_eq, ge_iff_le,
    UInt32.le_iff_toNat_le] at h
  exact h

theorem digitValue_of_isDigit {c : Char} (h : c.isDigit = true) :
    Numeral.digitValue? c = some (c.toNat - 48) := by
  obtain ⟨hl, hu⟩ := toNat_bounds h
  unfold Numeral.digitValue? Numeral.zeros
  rw [List.find?_cons_of_pos (by simp only [Bool.and_eq_true, decide_eq_true_eq]; omega)]
  rfl

theorem ne_of_isDigit {c d : Char} (h : c.isDigit = true) (hd : d.isDigit = false) : c ≠ d := by
  intro heq
  subst heq
  rw [h] at hd
  cases hd

/-- Digits are not blank. -/
theorem isBlank_of_isDigit {c : Char} (h : c.isDigit = true) : Text.isBlank c = false := by
  obtain ⟨hl, hu⟩ := toNat_bounds h
  unfold Text.isBlank Text.blanks
  simp only [List.any_cons, List.any_nil, Bool.or_eq_false_iff, Bool.and_eq_false_iff,
    decide_eq_false_iff_not, and_true]
  omega

theorem isSpacing_of_isDigit {c : Char} (h : c.isDigit = true) : Text.isSpacing c = false := by
  rw [Text.isSpacing, isBlank_of_isDigit h, Bool.false_and]

theorem dropWhile_digits {p : Char → Bool} (hp : ∀ c : Char, c.isDigit = true → p c = false)
    {ds : List Char} (h : AllDigits ds) (rest : List Char) :
    (ds ++ rest).dropWhile p = ds ++ rest := by
  obtain ⟨hne, hall⟩ := h
  cases ds with
  | nil => exact absurd rfl hne
  | cons c ds =>
    rw [List.cons_append, List.dropWhile_cons_of_neg]
    rw [hp c (hall c List.mem_cons_self)]
    decide

theorem sign_digits {ds : List Char} (h : AllDigits ds) (rest : List Char) :
    Numeral.sign (ds ++ rest) = (false, ds ++ rest) := by
  obtain ⟨hne, hall⟩ := h
  cases ds with
  | nil => exact absurd rfl hne
  | cons c ds =>
    have hc := hall c List.mem_cons_self
    have hminus := ne_of_isDigit hc (by decide : ('-' : Char).isDigit = false)
    have hplus := ne_of_isDigit hc (by decide : ('+' : Char).isDigit = false)
    rw [List.cons_append]
    unfold Numeral.sign
    split
    · rename_i heq; simp only [List.cons.injEq] at heq; exact absurd heq.1 hminus
    · rename_i heq; simp only [List.cons.injEq] at heq; exact absurd heq.1 hplus
    · rfl

/-- The values of digits. -/
def digitValues (ds : List Char) : List Nat := ds.map fun c => c.toNat - 48

theorem length_digitValues (ds : List Char) : (digitValues ds).length = ds.length :=
  List.length_map ..

theorem isEmpty_digitValues {ds : List Char} (h : AllDigits ds) :
    (digitValues ds).isEmpty = false := by
  rw [List.isEmpty_eq_false_iff, digitValues, ne_eq, List.map_eq_nil_iff]
  exact h.1

theorem ofDigits_digitValues (ds : List Char) :
    Numeral.ofDigits (digitValues ds) = natural ds := by
  rw [Numeral.ofDigits, digitValues, List.foldl_map, natural, Nat.ofDigitChars_eq_foldl]
  rfl

theorem natural_append (ds es : List Char) :
    natural (ds ++ es) = natural ds * 10 ^ es.length + natural es := by
  rw [natural, Nat.ofDigitChars_append, Nat.ofDigitChars_eq_ofDigitChars_zero, Nat.mul_comm]
  rfl

theorem natural_toDigits (n : Nat) : natural (Nat.toDigits 10 n) = n :=
  Nat.ofDigitChars_ten_toDigits

/-! ## Runs of digits -/

/-- A text that does not go on with the run of digits before it. -/
def EndsRun (cs : List Char) : Prop :=
  ∀ c rest, cs = c :: rest → Numeral.digitValue? c = none ∧ c ≠ '_'

theorem endsRun_nil : EndsRun [] := fun _ _ h => nomatch h

theorem endsRun_point (cs : List Char) : EndsRun ('.' :: cs) := by
  intro c rest h
  cases h
  decide

theorem skipJoint_eq {cs : List Char} (h : ∀ c rest, cs = c :: rest → c ≠ '_') :
    Numeral.skipJoint cs = cs := by
  unfold Numeral.skipJoint
  split
  · exact absurd rfl (h _ _ rfl)
  · rfl

/-- A run takes all digits and stops where they end. -/
theorem run_digits {ds : List Char} (hd : ∀ c ∈ ds, c.isDigit = true) {rest : List Char}
    (hr : EndsRun rest) : Numeral.run (ds ++ rest) = (digitValues ds, rest) := by
  induction ds with
  | nil =>
    rw [List.nil_append]
    cases rest with
    | nil => rw [Numeral.run]; rfl
    | cons c rest => rw [Numeral.run, (hr c rest rfl).1]; rfl
  | cons c ds ih =>
    have hc := hd c List.mem_cons_self
    have hskip : Numeral.skipJoint (ds ++ rest) = ds ++ rest := by
      refine skipJoint_eq fun c' rest' heq => ?_
      cases ds with
      | nil => exact (hr c' rest' heq).2
      | cons d ds =>
        rw [List.cons_append, List.cons.injEq] at heq
        rw [← heq.1]
        exact ne_of_isDigit (hd d (by simp)) (by decide)
    rw [List.cons_append, Numeral.run, digitValue_of_isDigit hc, hskip,
      ih fun c' hc' => hd c' (List.mem_cons_of_mem _ hc')]
    rfl

theorem run_of_digits {ds : List Char} (hd : ∀ c ∈ ds, c.isDigit = true) :
    Numeral.run ds = (digitValues ds, []) := by
  have h := run_digits hd endsRun_nil
  rwa [List.append_nil] at h

theorem runValue_digitValues (ds : List Char) :
    Numeral.runValue (digitValues ds) =
      if ds.length ≤ digitLimit then .ok (natural ds) else .error (.tooManyDigits ds.length) := by
  rw [Numeral.runValue, length_digitValues, ofDigits_digitValues]

/-- An integer reader takes digits, unless they are too many. -/
theorem readInt_of_digits {ds : List Char} (h : AllDigits ds) :
    Numeral.readInt ds =
      if ds.length ≤ digitLimit then .ok (natural ds : Int)
      else .error (.tooManyDigits ds.length) := by
  have hdrop := dropWhile_digits (fun _ => isSpacing_of_isDigit) h []
  have hsign := sign_digits h []
  rw [List.append_nil] at hdrop hsign
  unfold Numeral.readInt
  rw [hdrop, hsign]
  dsimp only
  rw [run_of_digits h.2]
  dsimp only
  rw [isEmpty_digitValues h, runValue_digitValues]
  by_cases hlen : ds.length ≤ digitLimit
  · rw [if_pos hlen, if_pos hlen]
    rfl
  · rw [if_neg hlen, if_neg hlen]
    rfl

/-! ## Number tokens -/

theorem not_mem_point {ds : List Char} (h : AllDigits ds) : '.' ∉ ds := fun hp =>
  ne_of_isDigit (h.2 _ hp) (by decide) rfl

theorem whole_of_digits {ds : List Char} (h : AllDigits ds) : whole ds = ds := by
  rw [whole, List.takeWhile_eq_self_iff]
  intro c hc
  exact decide_eq_true (ne_of_isDigit (h.2 c hc) (by decide))

theorem fraction_of_digits {ds : List Char} (h : AllDigits ds) : fraction ds = [] := by
  rw [fraction, List.dropWhile_eq_nil_iff.2]
  · rfl
  · intro c hc
    exact decide_eq_true (ne_of_isDigit (h.2 c hc) (by decide))

theorem whole_append_point {ds : List Char} (h : AllDigits ds) (es : List Char) :
    whole (ds ++ '.' :: es) = ds := by
  have hall : ∀ c ∈ ds, decide (c ≠ '.') = true := fun c hc =>
    decide_eq_true (ne_of_isDigit (h.2 c hc) (by decide))
  rw [whole, List.takeWhile_append_of_pos hall]
  simp

theorem fraction_append_point {ds : List Char} (h : AllDigits ds) (es : List Char) :
    fraction (ds ++ '.' :: es) = es := by
  have hall : ∀ c ∈ ds, decide (c ≠ '.') = true := fun c hc =>
    decide_eq_true (ne_of_isDigit (h.2 c hc) (by decide))
  rw [fraction, List.dropWhile_append_of_pos hall]
  simp

/-- What the reader of decimals finds in a number token. -/
theorem scanDecimal_of_isNumeral {t : List Char} (h : IsNumeral t) :
    Numeral.scanDecimal t =
      some (⟨digitValues (whole t), digitValues (fraction t), false, []⟩, []) := by
  cases h with
  | whole h =>
    unfold Numeral.scanDecimal
    rw [run_of_digits h.2]
    dsimp only
    rw [isEmpty_digitValues h, whole_of_digits h, fraction_of_digits h]
    rfl
  | @point ds es h h' =>
    unfold Numeral.scanDecimal
    rw [run_digits h.2 (endsRun_point es)]
    simp only [run_of_digits h'.2, isEmpty_digitValues h, whole_append_point h,
      fraction_append_point h]
    rfl

/-- No letters hold the place of digits in a number token. -/
theorem refusePlaceholders_of_isNumeral {t : List Char} (h : IsNumeral t) :
    Numeral.refusePlaceholders t = .ok () := by
  have hnone : Numeral.placeholders? t = none := by
    cases h with
    | whole h =>
      unfold Numeral.placeholders?
      rw [run_of_digits h.2]
      split
      · rename_i heq
        simp at heq
      · rfl
    | @point ds es h h' =>
      unfold Numeral.placeholders?
      rw [run_digits h.2 (endsRun_point es)]
      obtain ⟨hne, hall⟩ := h'
      cases es with
      | nil => exact absurd rfl hne
      | cons e es =>
        have he : Numeral.isPlaceholder e = false := by
          have he := hall e List.mem_cons_self
          rw [Numeral.isPlaceholder, Bool.or_eq_false_iff]
          exact ⟨beq_false_of_ne (ne_of_isDigit he (by decide)),
            beq_false_of_ne (ne_of_isDigit he (by decide))⟩
        split
        · rename_i heq
          simp only [Prod.mk.injEq, List.cons.injEq, true_and] at heq
          obtain ⟨-, rfl⟩ := heq
          rw [List.takeWhile_cons_of_neg (by rw [he]; decide)]
          rfl
        · rfl
  rw [Numeral.refusePlaceholders, hnone]

theorem dropWhile_numeral {p : Char → Bool} (hp : ∀ c : Char, c.isDigit = true → p c = false)
    {t : List Char} (h : IsNumeral t) : t.dropWhile p = t := by
  cases h with
  | whole h =>
    have hdrop := dropWhile_digits hp h []
    rwa [List.append_nil] at hdrop
  | point h h' => exact dropWhile_digits hp h _

theorem sign_numeral {t : List Char} (h : IsNumeral t) : Numeral.sign t = (false, t) := by
  cases h with
  | whole h =>
    have hsign := sign_digits h []
    rwa [List.append_nil] at hsign
  | point h h' => exact sign_digits h _

/-- A decimal without exponent is refused when a run is too long, else it has its value. -/
theorem toRat_scanned (t : List Char) :
    Numeral.Scientific.toRat ⟨digitValues (whole t), digitValues (fraction t), false, []⟩ =
      if (whole t).length ≤ digitLimit then
        if (fraction t).length ≤ digitLimit then .ok (value t)
        else .error (.tooManyDigits (fraction t).length)
      else .error (.tooManyDigits (whole t).length) := by
  have hvalue : mkRat ((natural (whole t) * Nat.pow 10 (digitValues (fraction t)).length +
      natural (fraction t) : Nat) * Nat.pow 10 0 : Nat)
      (Nat.pow 10 (digitValues (fraction t)).length) = value t := by
    rw [length_digitValues, value, natural_append, Rat.mkRat_eq_div]
    simp
  unfold Numeral.Scientific.toRat
  dsimp only
  rw [runValue_digitValues, runValue_digitValues]
  by_cases hw : (whole t).length ≤ digitLimit
  · rw [if_pos hw, if_pos hw]
    by_cases hf : (fraction t).length ≤ digitLimit
    · rw [if_pos hf, if_pos hf, ← hvalue]
      rfl
    · rw [if_neg hf, if_neg hf]
      rfl
  · rw [if_neg hw, if_neg hw]
    rfl

theorem ofLiteral_integer {t : List Char} (h : IsNumeral t) {c : Int} :
    Coefficient.ofLiteral t = .ok c ↔ Accepts .integer t ∧ c = number .integer t := by
  show (if t.contains '.' then .error (.pointInInteger t) else Numeral.readInt t) = _ ↔ _
  cases h with
  | whole h =>
    have hpoint := not_mem_point h
    rw [if_neg (by rw [List.contains_iff_mem]; exact hpoint), readInt_of_digits h]
    simp only [Accepts, number, hpoint, not_false_eq_true, true_and]
    by_cases hlen : t.length ≤ digitLimit
    · simp only [hlen, if_true, Except.ok.injEq, true_and]
      exact eq_comm
    · simp [hlen]
  | @point ds es h h' =>
    have hpoint : '.' ∈ ds ++ '.' :: es := by simp
    rw [if_pos (by rw [List.contains_iff_mem]; exact hpoint)]
    simp [Accepts, hpoint]

/-- A fraction without a slash is the decimal after its sign. -/
theorem readFraction_of_sign {text t : List Char} {negative : Bool}
    (hsign : Numeral.sign (text.dropWhile Text.isBlank) = (negative, t)) (h : IsNumeral t) :
    Numeral.readFraction text =
      (Numeral.Scientific.toRat ⟨digitValues (whole t), digitValues (fraction t), false, []⟩).map
        fun q => if negative then -q else q := by
  unfold Numeral.readFraction
  rw [hsign]
  dsimp only
  rw [refusePlaceholders_of_isNumeral h, scanDecimal_of_isNumeral h]
  dsimp only [bind, Except.bind]
  split
  · -- No slash follows the first run of a numeral.
    rename_i heq
    cases h with
    | whole h =>
      rw [run_of_digits h.2] at heq
      simp at heq
    | point h h' =>
      rw [run_digits h.2 (endsRun_point _)] at heq
      simp at heq
  · cases Numeral.Scientific.toRat
        ⟨digitValues (whole t), digitValues (fraction t), false, []⟩ with
    | error e => rfl
    | ok q => rfl

theorem readFraction_of_isNumeral {t : List Char} (h : IsNumeral t) :
    Numeral.readFraction t =
      Numeral.Scientific.toRat ⟨digitValues (whole t), digitValues (fraction t), false, []⟩ := by
  have hsign : Numeral.sign (t.dropWhile Text.isBlank) = (false, t) := by
    rw [dropWhile_numeral (fun _ => isBlank_of_isDigit) h, sign_numeral h]
  rw [readFraction_of_sign hsign h]
  exact congrFun Except.map_id _

theorem ofLiteral_rational {t : List Char} (h : IsNumeral t) {c : Rat} :
    Coefficient.ofLiteral t = .ok c ↔ Accepts .rational t ∧ c = number .rational t := by
  show Numeral.readFraction t = _ ↔ _
  rw [readFraction_of_isNumeral h, toRat_scanned]
  simp only [Accepts, number]
  by_cases hw : (whole t).length ≤ digitLimit
  · by_cases hf : (fraction t).length ≤ digitLimit
    · simp only [hw, hf, if_true, Except.ok.injEq, true_and]
      exact eq_comm
    · simp [hw, hf]
  · simp [hw]

theorem readReal_of_isNumeral {t : List Char} (h : IsNumeral t) :
    Numeral.readReal t = .ok (nearest t) := by
  have happend : digitValues (whole t) ++ digitValues (fraction t) =
      digitValues (whole t ++ fraction t) := List.map_append.symm
  have hexponent : Numeral.signed false (Numeral.ofDigits []) = 0 := rfl
  unfold Numeral.readReal
  rw [dropWhile_numeral (fun _ => isSpacing_of_isDigit) h, sign_numeral h]
  dsimp only
  rw [scanDecimal_of_isNumeral h]
  dsimp only
  rw [if_pos (by rfl), Numeral.Scientific.toFloat, nearest, happend, ofDigits_digitValues,
    length_digitValues, hexponent, Int.zero_sub]

theorem ofLiteral_real {t : List Char} (h : IsNumeral t) {c : Float} :
    Coefficient.ofLiteral t = .ok c ↔ Accepts .real t ∧ c = number .real t := by
  show (do let x ← Numeral.readReal t; if x.isFinite then .ok x else .error (.notFinite t)) = _ ↔ _
  rw [readReal_of_isNumeral h]
  show (if (nearest t).isFinite then Except.ok (nearest t) else _) = _ ↔ _
  simp only [Accepts, number]
  by_cases hfin : (nearest t).isFinite = true
  · simp only [hfin, if_true, Except.ok.injEq, true_and]
    exact eq_comm
  · simp [hfin]

/-- A domain accepts exactly the number tokens that `Accepts` lists, and reads each of them as the
number it denotes. -/
theorem ofLiteral_eq_ok_iff {d : Domain} {t : List Char} (h : IsNumeral t) {c : d.Carrier} :
    Coefficient.ofLiteral t = .ok c ↔ Accepts d t ∧ c = number d t := by
  cases d with
  | integer => exact ofLiteral_integer h
  | rational => exact ofLiteral_rational h
  | real => exact ofLiteral_real h

end Literal
end Multipoly
