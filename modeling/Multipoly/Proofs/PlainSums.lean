import Multipoly.Proofs.EvaluationLaws
import Multipoly.Proofs.Grammar

/-!
# Sums without products

What a line without stars says. Its operands are monomials and groups, joined by signs, with minus
signs in front of them. A monomial that follows another one by a sign continues its run, and a run
is one operand: the signs in front of it, apart from a minus sign directly in front of its first
monomial, apply to all of its monomials. So the value is the ordinary one, from left to right,
exactly as far as no run of several monomials has a minus sign in front.

Results:
* `PlainSum.readable`: how a sum is read, whatever follows it;
* `PlainSum.exists_spells`: every sum without stars is one of these;
* `Poly.read_plain`: the polynomial of a line without stars;
* `Poly.read_not_ordinary`: it is not always the ordinary value.
-/
namespace Multipoly
open MvPolynomial Phrase Grammar

/-! ## Signs -/

namespace Sign
variable {K : Type} [AddCommGroup K]

/-- The sign of a product. -/
def times : Sign → Sign → Sign
  | .plus, s => s
  | .minus, .plus => .minus
  | .minus, .minus => .plus

theorem of_times (s s' : Sign) (x : K) : (s.times s').of x = s.of (s'.of x) := by
  cases s with
  | plus => rfl
  | minus =>
    cases s' with
    | plus => rfl
    | minus => exact (neg_neg x).symm

theorem of_add (s : Sign) (x y : K) : s.of (x + y) = s.of x + s.of y := by
  cases s with
  | plus => rfl
  | minus => exact neg_add x y

theorem of_zero (s : Sign) : s.of (0 : K) = 0 := by
  cases s with
  | plus => rfl
  | minus => exact neg_zero

theorem meaning_join {R : PolyRing} (s : Sign) (e e' : Expr R) :
    (s.join e e').meaning = e.meaning + s.of e'.meaning := by
  cases s with
  | plus => rfl
  | minus => exact sub_eq_add_neg _ _

end Sign

theorem Run.meaning_nil {R : PolyRing} : Run.meaning ([] : Run R) = 0 := rfl

theorem Run.meaning_cons {R : PolyRing} (s : Sign) (m : Monomial R) (ms : Run R) :
    Run.meaning ((s, m) :: ms) = s.of m.denote + ms.meaning := List.sum_cons

/-! ## Sums and their values -/

/-- A sum of monomials and groups with signs, without products. -/
inductive PlainSum (R : PolyRing) where
  | monomial (c : ℚ) (factors : List (Fin R.arity × ℕ))
  | group (t : PlainSum R)
  | power (t : PlainSum R) (n : ℕ)
  /-- A minus sign in front of an operand. -/
  | neg (t : PlainSum R)
  | join (s : Sign) (left right : PlainSum R)

namespace PlainSum
variable {R : PolyRing}

/-- The ordinary value: signs join operands from left to right, and a minus sign in front negates
the operand after it alone. -/
noncomputable def ordinary : PlainSum R → MvPolynomial (Fin R.arity) ℚ
  | monomial c fs => C c * (fs.map fun f => X f.1 ^ f.2).prod
  | group t => t.ordinary
  | power t n => t.ordinary ^ n
  | neg t => -t.ordinary
  | join s t u => t.ordinary + s.of u.ordinary

def isMonomial : PlainSum R → Bool
  | monomial _ _ => true
  | _ => false

/-- The product of the signs in front of the run at the end of a sum. A minus sign directly in front
of the first monomial of the run is not one of them. There is no run at the end of a group. -/
def runSign : PlainSum R → Option Sign
  | monomial _ _ => some .plus
  | group _ => none
  | power _ _ => none
  | neg t => if t.isMonomial then some .plus else t.runSign.map (Sign.times .minus)
  | join s t u => if u.isMonomial then some (t.runSign.getD s) else u.runSign.map s.times

/-- The signs in front of the run of `t` that `u` continues, when it does. -/
def inherited (t u : PlainSum R) : Sign :=
  if u.isMonomial then t.runSign.getD .plus else .plus

/-- The value: the ordinary one, except that a monomial that continues a run has the signs in front
of the run too. -/
noncomputable def value : PlainSum R → MvPolynomial (Fin R.arity) ℚ
  | monomial c fs => C c * (fs.map fun f => X f.1 ^ f.2).prod
  | group t => t.value
  | power t n => t.value ^ n
  | neg t => -t.value
  | join s t u => t.value + (inherited t u).of (s.of u.value)

/-- No variable is repeated in a monomial. -/
def Distinct : PlainSum R → Prop
  | monomial _ fs => (fs.map Prod.fst).Nodup
  | group t => t.Distinct
  | power t _ => t.Distinct
  | neg t => t.Distinct
  | join _ t u => t.Distinct ∧ u.Distinct

/-- No run of several monomials has a minus sign in front. -/
def Neutral : PlainSum R → Prop
  | monomial _ _ => True
  | group t => t.Neutral
  | power t _ => t.Neutral
  | neg t => t.Neutral
  | join _ t u => t.Neutral ∧ u.Neutral ∧ inherited t u = .plus

theorem value_eq_ordinary {t : PlainSum R} (h : t.Neutral) : t.value = t.ordinary := by
  induction t with
  | monomial c fs => rfl
  | group t ih => exact ih h
  | power t n ih => rw [value, ordinary, ih h]
  | neg t ih => rw [value, ordinary, ih h]
  | join s t u iht ihu =>
    obtain ⟨ht, hu, hsign⟩ := h
    rw [value, ordinary, iht ht, ihu hu, hsign]
    rfl

/-- A minus sign after a group applies to the whole run that follows. -/
example (t : PlainSum R) (c d : ℚ) (fs gs : List (Fin R.arity × ℕ)) :
    (join .plus (join .minus (group t) (monomial c fs)) (monomial d gs)).value =
      t.value + -(monomial c fs).value + -(monomial d gs).value := rfl

/-! ## Tokens -/

/-- Variables with optional exponents. -/
inductive Factors (R : PolyRing) : List Token → List (Fin R.arity × ℕ) → Prop
  | nil : Factors R [] []
  | plain (i : Fin R.arity) {ts : List Token} {fs : List (Fin R.arity × ℕ)}
      (h : Factors R ts fs) : Factors R (.letter (R.variableAt i) :: ts) ((i, 1) :: fs)
  | raised (i : Fin R.arity) {ds : List Char} {ts : List Token} {fs : List (Fin R.arity × ℕ)}
      (hd : Literal.IsExponent ds) (h : Factors R ts fs) :
      Factors R (.letter (R.variableAt i) :: .mark .caret :: .number ds :: ts)
        ((i, Literal.natural ds) :: fs)

/-- The tokens of a sum, by the part of the grammar that it is. -/
inductive Spells (R : PolyRing) : Part → PlainSum R → List Token → Prop
  | number {ds : List Char} {ts : List Token} {fs : List (Fin R.arity × ℕ)} (hn : IsNumeral ds)
      (hd : Literal.Accepts R.domain ds) (h : Factors R ts fs) :
      Spells R .operand (.monomial (Literal.value ds) fs) (.number ds :: ts)
  | letters {ts : List Token} {fs : List (Fin R.arity × ℕ)} (hne : ts ≠ [])
      (h : Factors R ts fs) : Spells R .operand (.monomial 1 fs) ts
  | group {t : PlainSum R} {ts : List Token} (h : Spells R .sum t ts) :
      Spells R .operand (.group t) (.mark .opening :: (ts ++ [.mark .closing]))
  | power {t : PlainSum R} {ts : List Token} {ds : List Char} (h : Spells R .sum t ts)
      (hd : Literal.IsExponent ds) : Spells R .operand (.power t (Literal.natural ds))
        (.mark .opening :: (ts ++ [.mark .closing, .mark .caret, .number ds]))
  | operand {t : PlainSum R} {ts : List Token} (h : Spells R .operand t ts) :
      Spells R .signed t ts
  | minus {t : PlainSum R} {ts : List Token} (h : Spells R .signed t ts) :
      Spells R .signed (.neg t) (.mark .minus :: ts)
  | signed {t : PlainSum R} {ts : List Token} (h : Spells R .signed t ts) : Spells R .sum t ts
  | join {s : Sign} {t u : PlainSum R} {ts us : List Token} (h : Spells R .sum t ts)
      (h' : Spells R .signed u us) : Spells R .sum (.join s t u) (ts ++ s.token :: us)

variable {p : Part} {t u : PlainSum R} {ts us rest : List Token} {c : ℚ}
  {fs : List (Fin R.arity × ℕ)}

/-! ## Monomials -/

theorem letters_of_factors (h : Factors R ts fs) (rest : List Token) :
    Letters R (ts ++ rest) (fs.map fun f => ((f.1 : ℕ), f.2)) rest := by
  induction h with
  | nil => exact .nil rest
  | plain i _ ih => exact .plain (slot_getElem i.isLt) ih
  | raised i hd _ ih => exact .raised (slot_getElem i.isLt) hd ih

theorem lookup_reverse_of_notMem {fs : List (ℕ × ℕ)} {i : ℕ} (h : i ∉ fs.map Prod.fst) :
    fs.reverse.lookup i = none := by
  rw [List.lookup_eq_none_iff]
  intro f hf
  have hne : i ≠ f.1 := fun heq => h (List.mem_map.2 ⟨f, List.mem_reverse.1 hf, heq.symm⟩)
  simpa using hne

theorem lastPower_of_notMem {fs : List (ℕ × ℕ)} {i : ℕ} (h : i ∉ fs.map Prod.fst) :
    lastPower fs i = 0 := by
  rw [lastPower, lookup_reverse_of_notMem h]
  rfl

theorem lastPower_cons {fs : List (ℕ × ℕ)} {i e : ℕ} (h : i ∉ fs.map Prod.fst) (j : ℕ) :
    lastPower ((i, e) :: fs) j = if j = i then e else lastPower fs j := by
  unfold lastPower
  rw [List.reverse_cons, List.lookup_append, List.lookup_cons]
  by_cases hij : j = i
  · subst hij
    rw [if_pos rfl, lookup_reverse_of_notMem h]
    simp
  · rw [if_neg hij, beq_false_of_ne hij]
    simp

/-- Where no variable is repeated, the last power of each is its only one. -/
theorem prod_lastPower {n : ℕ} {M : Type} [CommMonoid M] (x : Fin n → M) {fs : List (Fin n × ℕ)}
    (h : (fs.map Prod.fst).Nodup) :
    ∏ i : Fin n, x i ^ lastPower (fs.map fun f => ((f.1 : ℕ), f.2)) i =
      (fs.map fun f => x f.1 ^ f.2).prod := by
  induction fs with
  | nil => exact Finset.prod_eq_one fun i _ => pow_zero (x i)
  | cons f fs ih =>
    obtain ⟨i, e⟩ := f
    obtain ⟨hi, hfs⟩ := List.nodup_cons.1 h
    have hi' : (i : ℕ) ∉ (fs.map fun f => ((f.1 : ℕ), f.2)).map Prod.fst := by
      simpa [Fin.val_inj] using hi
    have hsplit : ∀ j : Fin n,
        x j ^ lastPower (((i : ℕ), e) :: fs.map fun f => ((f.1 : ℕ), f.2)) j =
          (if j = i then x i ^ e else 1) *
            x j ^ lastPower (fs.map fun f => ((f.1 : ℕ), f.2)) j := by
      intro j
      rw [lastPower_cons hi']
      by_cases hij : j = i
      · subst hij
        rw [if_pos rfl, if_pos rfl, lastPower_of_notMem hi', pow_zero, mul_one]
      · rw [if_neg (Fin.val_ne_of_ne hij), if_neg hij, one_mul]
    rw [List.map_cons, Finset.prod_congr rfl fun j _ => hsplit j, Finset.prod_mul_distrib,
      Finset.prod_ite_eq', if_pos (Finset.mem_univ i), ih hfs]
    rfl

theorem getD_powersOf (fs : List (ℕ × ℕ)) (i : Fin R.arity) :
    (powersOf R fs).getD i 0 = lastPower fs i := by
  simp [powersOf]

/-- A monomial without repeated variables is read as what it says. -/
theorem exists_unsigned (hexact : R.domain ≠ .real) (h : Spells R p (.monomial c fs) ts)
    (hfs : (fs.map Prod.fst).Nodup) :
    ∃ m : Monomial R, (∀ rest, Unsigned R (ts ++ rest) m rest) ∧
      m.denote = (monomial c fs : PlainSum R).value := by
  have hvalue : ∀ k : R.Carrier,
      Monomial.denote ⟨k, powersOf R (fs.map fun f => ((f.1 : ℕ), f.2))⟩ =
        C (R.domain.toRat k) * (fs.map fun f => X f.1 ^ f.2).prod := by
    intro k
    rw [Monomial.denote_eq_prod]
    simp only [getD_powersOf]
    rw [prod_lastPower X hfs]
  generalize ht : (monomial c fs : PlainSum R) = t at h
  induction h with
  | @number ds ts fs' hn hd h =>
    cases ht
    refine ⟨_, fun rest => .number hd (letters_of_factors h rest), ?_⟩
    rw [hvalue, Literal.toRat_number hexact hn hd]
    rfl
  | @letters ts fs' hne h =>
    cases ht
    refine ⟨_, fun rest => .letters ?_ (letters_of_factors h rest), ?_⟩
    · cases h with
      | nil => exact absurd rfl hne
      | _ => exact List.cons_ne_nil _ _
    · rw [hvalue, Domain.toRat_one hexact]
      rfl
  | operand _ ih => exact ih ht
  | signed _ ih => exact ih ht
  | _ => cases ht

/-! ## Readings -/

/-- The kind of phrase that a part is read as. -/
def level : Part → Level
  | .operand => .factor
  | .signed => .factor
  | .sum => .sum

/-- A sum is read as its value, whatever follows it. When it ends with a run, this run takes in the
monomials that follow, and the signs in front of it apply to them. -/
def Readable (l : Level) (t : PlainSum R) (ts : List Token) : Prop :=
  match t.runSign with
  | none => ∀ rest, ∃ e, Reads R l (ts ++ rest) e rest ∧ e.meaning = t.value
  | some s => ∀ us ms rest, RunRest R us ms rest →
    ∃ e, Reads R l (ts ++ us) e rest ∧ e.meaning = t.value + s.of ms.meaning

theorem readable_of_none {l : Level} (hsign : t.runSign = none)
    (h : ∀ rest, ∃ e, Reads R l (ts ++ rest) e rest ∧ e.meaning = t.value) : Readable l t ts := by
  rw [Readable, hsign]
  exact h

theorem readable_of_some {l : Level} {s : Sign} (hsign : t.runSign = some s)
    (h : ∀ us ms rest, RunRest R us ms rest →
      ∃ e, Reads R l (ts ++ us) e rest ∧ e.meaning = t.value + s.of ms.meaning) :
    Readable l t ts := by
  rw [Readable, hsign]
  exact h

theorem Readable.of_none {l : Level} (h : Readable l t ts) (hsign : t.runSign = none)
    (rest : List Token) : ∃ e, Reads R l (ts ++ rest) e rest ∧ e.meaning = t.value := by
  rw [Readable, hsign] at h
  exact h rest

theorem Readable.of_some {l : Level} {s : Sign} (h : Readable l t ts) (hsign : t.runSign = some s)
    {ms : Run R} (hms : RunRest R us ms rest) :
    ∃ e, Reads R l (ts ++ us) e rest ∧ e.meaning = t.value + s.of ms.meaning := by
  rw [Readable, hsign] at h
  exact h us ms rest hms

/-- Where no run goes on after it, a sum is read as its value. -/
theorem Readable.closed {l : Level} (h : Readable l t ts) (hrest : ¬ ContinuesRun rest) :
    ∃ e, Reads R l (ts ++ rest) e rest ∧ e.meaning = t.value := by
  cases hsign : t.runSign with
  | none => exact h.of_none hsign rest
  | some s =>
    obtain ⟨e, he, hmeaning⟩ := h.of_some hsign (.stop hrest)
    refine ⟨e, he, ?_⟩
    rw [hmeaning, Run.meaning_nil, Sign.of_zero, add_zero]

theorem Readable.to_sum (h : Readable .factor t ts) : Readable .sum t ts := by
  unfold Readable at *
  split at h
  · intro rest
    obtain ⟨e, he, hmeaning⟩ := h rest
    exact ⟨e, .product (.factor he), hmeaning⟩
  · intro us ms rest hms
    obtain ⟨e, he, hmeaning⟩ := h us ms rest hms
    exact ⟨e, .product (.factor he), hmeaning⟩

theorem not_continuesRun_closing (rest : List Token) : ¬ ContinuesRun (.mark .closing :: rest) :=
  not_continuesRun_mark (by decide) (by decide)

/-- Only a monomial starts with a number or a letter. -/
theorem Spells.head (h : Spells R .signed t ts) (ht : t.isMonomial = false) (rest : List Token) :
    ∀ x ∈ (ts ++ rest).head?, x.startsMonomial = false := by
  cases h with
  | operand h =>
    cases h with
    | number _ _ _ => cases ht
    | letters _ _ => cases ht
    | group _ => exact forall_head_cons rfl
    | power _ _ => exact forall_head_cons rfl
  | minus h => exact forall_head_cons rfl

theorem readable_of_unsigned {m : Monomial R} (hsign : t.runSign = some .plus)
    (hm : ∀ rest, Unsigned R (ts ++ rest) m rest) (hdenote : m.denote = t.value) :
    Readable .factor t ts := by
  refine readable_of_some hsign fun us ms rest hms => ⟨_, .run (hm us) hms, ?_⟩
  rw [Expr.meaning, Run.meaning_cons, ← hdenote]
  rfl

theorem readable_neg (hexact : R.domain ≠ .real) (h : Spells R .signed t ts) (ht : t.Distinct)
    (hread : Readable .factor t ts) : Readable .factor (.neg t) (.mark .minus :: ts) := by
  cases hmonomial : t.isMonomial with
  | true =>
    -- The sign belongs to the monomial.
    cases t with
    | monomial c fs =>
      obtain ⟨m, hm, hdenote⟩ := exists_unsigned hexact h ht
      refine readable_of_some rfl fun us ms rest hms => ⟨_, .minusRun (hm us) hms, ?_⟩
      rw [Expr.meaning, Run.meaning_cons, value, ← hdenote]
      rfl
    | _ => cases hmonomial
  | false =>
    have hneg : (PlainSum.neg t).runSign = t.runSign.map (Sign.times .minus) := by
      rw [runSign, hmonomial]
      rfl
    cases hsign : t.runSign with
    | none =>
      refine readable_of_none (by rw [hneg, hsign]; rfl) fun rest => ?_
      obtain ⟨e, he, hmeaning⟩ := hread.of_none hsign rest
      refine ⟨.neg e, .neg (h.head hmonomial rest) he, ?_⟩
      rw [Expr.meaning, hmeaning, value]
    | some s =>
      refine readable_of_some (s := Sign.times .minus s) (by rw [hneg, hsign]; rfl)
        fun us ms rest hms => ?_
      obtain ⟨e, he, hmeaning⟩ := hread.of_some hsign hms
      refine ⟨.neg e, .neg (h.head hmonomial us) he, ?_⟩
      rw [Expr.meaning, hmeaning, value, Sign.of_times, neg_add]
      rfl

/-- Only a monomial goes on with a run after a sign. -/
theorem Spells.not_continuesRun (h : Spells R .signed t ts) (ht : t.isMonomial = false) (s : Sign)
    (rest : List Token) : ¬ ContinuesRun (s.token :: (ts ++ rest)) := by
  have hhead := h.head ht rest
  rw [continuesRun_cons]
  generalize ts ++ rest = us at hhead
  cases us with
  | nil => exact nofun
  | cons x us => simpa using hhead

theorem readable_join (hexact : R.domain ≠ .real) {s : Sign} (hread : Readable .sum t ts)
    (h : Spells R .signed u us) (hu : u.Distinct) (hread' : Readable .factor u us) :
    Readable .sum (.join s t u) (ts ++ s.token :: us) := by
  cases hmonomial : u.isMonomial with
  | true =>
    cases u with
    | monomial c fs =>
      obtain ⟨m, hm, hdenote⟩ := exists_unsigned hexact h hu
      have hjoin : (PlainSum.join s t (monomial c fs)).runSign = some (t.runSign.getD s) := rfl
      have hvalue : (PlainSum.join s t (monomial c fs)).value =
          t.value + (t.runSign.getD .plus).of (s.of (monomial c fs).value) := rfl
      cases hsign : t.runSign with
      | none =>
        -- The monomial starts a run, which the sign applies to.
        refine readable_of_some (s := s) (by rw [hjoin, hsign]; rfl) fun vs ms rest hms => ?_
        obtain ⟨e, he, hmeaning⟩ := hread.of_none hsign (s.token :: (us ++ vs))
        refine ⟨s.join e (.run ((.plus, m) :: ms)), ?_, ?_⟩
        · rw [List.append_assoc]
          exact .join he (.factor (.run (hm vs) hms))
        · rw [Sign.meaning_join, Expr.meaning, Run.meaning_cons, hmeaning, hdenote, hvalue, hsign]
          exact (congrArg _ (Sign.of_add s _ _)).trans (add_assoc _ _ _).symm
      | some s' =>
        -- The monomial continues a run.
        refine readable_of_some (s := s') (by rw [hjoin, hsign]; rfl) fun vs ms rest hms => ?_
        obtain ⟨e, he, hmeaning⟩ := hread.of_some hsign (.next (s := s) (hm vs) hms)
        refine ⟨e, ?_, ?_⟩
        · rw [List.append_assoc]
          exact he
        · rw [hmeaning, Run.meaning_cons, hdenote, Sign.of_add, hvalue, hsign, ← add_assoc]
          rfl
    | _ => cases hmonomial
  | false =>
    have hjoin : (PlainSum.join s t u).runSign = u.runSign.map s.times := by
      rw [runSign, hmonomial]
      rfl
    have hvalue : (PlainSum.join s t u).value = t.value + s.of u.value := by
      rw [value, inherited, hmonomial]
      rfl
    have hleft := fun rest => hread.closed (h.not_continuesRun hmonomial s rest)
    cases hsign : u.runSign with
    | none =>
      refine readable_of_none (by rw [hjoin, hsign]; rfl) fun rest => ?_
      obtain ⟨e, he, hmeaning⟩ := hleft rest
      obtain ⟨e', he', hmeaning'⟩ := hread'.of_none hsign rest
      refine ⟨s.join e e', ?_, ?_⟩
      · rw [List.append_assoc]
        exact .join he (.factor he')
      · rw [Sign.meaning_join, hmeaning, hmeaning', hvalue]
    | some s' =>
      refine readable_of_some (s := s.times s') (by rw [hjoin, hsign]; rfl) fun vs ms rest hms => ?_
      obtain ⟨e, he, hmeaning⟩ := hleft vs
      obtain ⟨e', he', hmeaning'⟩ := hread'.of_some hsign hms
      refine ⟨s.join e e', ?_, ?_⟩
      · rw [List.append_assoc]
        exact .join he (.factor he')
      · rw [Sign.meaning_join, hmeaning, hmeaning', hvalue, Sign.of_times, Sign.of_add, add_assoc]

/-- Every sum is read as its value. -/
theorem readable (hexact : R.domain ≠ .real) (h : Spells R p t ts) (ht : t.Distinct) :
    Readable (level p) t ts := by
  induction h with
  | number hn hd h =>
    obtain ⟨m, hm, hdenote⟩ := exists_unsigned hexact (.number hn hd h) ht
    exact readable_of_unsigned rfl hm hdenote
  | letters hne h =>
    obtain ⟨m, hm, hdenote⟩ := exists_unsigned hexact (.letters hne h) ht
    exact readable_of_unsigned rfl hm hdenote
  | group h ih =>
    refine readable_of_none rfl fun rest => ?_
    obtain ⟨e, he, hmeaning⟩ := (ih ht).closed (not_continuesRun_closing rest)
    refine ⟨e, ?_, hmeaning⟩
    rw [List.cons_append, List.append_assoc]
    exact .group he
  | @power t ts ds h hd ih =>
    refine readable_of_none rfl fun rest => ?_
    obtain ⟨e, he, hmeaning⟩ := (ih ht).closed
      (not_continuesRun_closing (.mark .caret :: .number ds :: rest))
    refine ⟨.pow e (Literal.natural ds), ?_, ?_⟩
    · rw [List.cons_append, List.append_assoc]
      exact .power hd he
    · rw [Expr.meaning, hmeaning, value]
  | operand _ ih => exact ih ht
  | minus h ih => exact readable_neg hexact h ht (ih ht)
  | signed _ ih => exact (ih ht).to_sum
  | join h h' ih ih' => exact readable_join hexact (ih ht.1) h' ht.2 (ih' ht.2)

/-! ## Existence -/

theorem exists_factors (h : Variables R ts) : ∃ fs, Factors R ts fs := by
  have hslot : ∀ {v}, v ∈ R.vars → ∃ i : Fin R.arity, R.variableAt i = v := fun hv =>
    List.mem_iff_get.1 hv
  induction h with
  | nil => exact ⟨[], .nil⟩
  | plain hv _ ih =>
    obtain ⟨i, rfl⟩ := hslot hv
    obtain ⟨fs, hfs⟩ := ih
    exact ⟨_, .plain i hfs⟩
  | raised hv hd _ ih =>
    obtain ⟨i, rfl⟩ := hslot hv
    obtain ⟨fs, hfs⟩ := ih
    exact ⟨_, .raised i hd hfs⟩

theorem exists_sign {k : Mark} (hk : Joins k) (hstar : k ≠ .star) :
    ∃ s : Sign, s.token = .mark k := by
  rcases hk with rfl | rfl | rfl
  · exact ⟨.plus, rfl⟩
  · exact ⟨.minus, rfl⟩
  · exact absurd rfl hstar

/-- Two sums joined by a sign, the operands of the second one taken in one by one. -/
theorem Spells.exists_join (h : Spells R .sum t ts) (s : Sign) (h' : Spells R .sum u us) :
    ∃ v, Spells R .sum v (ts ++ s.token :: us) := by
  generalize hpart : Part.sum = part at h'
  induction h' with
  | signed h' _ => exact ⟨_, .join h h'⟩
  | @join s' t' u' us vs _ hu' ih _ =>
    obtain ⟨v, hv⟩ := ih hpart
    refine ⟨.join s' v u', ?_⟩
    rw [← List.cons_append, ← List.append_assoc]
    exact .join hv hu'
  | _ => cases hpart

/-- The sums that the grammar derives without a star are plain. -/
theorem exists_spells (h : Derives R p ts) (hstar : .mark .star ∉ ts)
    (hnumeral : ∀ ds, .number ds ∈ ts → IsNumeral ds) : ∃ t, Spells R p t ts := by
  induction h with
  | @monomial ts h =>
    cases h with
    | @number ds ts hd h =>
      obtain ⟨fs, hfs⟩ := exists_factors h
      exact ⟨_, .number (hnumeral ds List.mem_cons_self) hd hfs⟩
    | letters hne h =>
      obtain ⟨fs, hfs⟩ := exists_factors h
      exact ⟨_, .letters hne hfs⟩
  | @group ts _ ih =>
    obtain ⟨t, ht⟩ := ih (fun h => hstar (by simp [h])) (fun ds h => hnumeral ds (by simp [h]))
    exact ⟨_, .group ht⟩
  | @power ts ds _ hd ih =>
    obtain ⟨t, ht⟩ := ih (fun h => hstar (by simp [h])) (fun ds h => hnumeral ds (by simp [h]))
    exact ⟨_, .power ht hd⟩
  | operand _ ih =>
    obtain ⟨t, ht⟩ := ih hstar hnumeral
    exact ⟨t, .operand ht⟩
  | minus _ ih =>
    obtain ⟨t, ht⟩ := ih (fun h => hstar (by simp [h])) (fun ds h => hnumeral ds (by simp [h]))
    exact ⟨_, .minus ht⟩
  | signed _ ih =>
    obtain ⟨t, ht⟩ := ih hstar hnumeral
    exact ⟨t, .signed ht⟩
  | @join ts us k _ hk _ ih ih' =>
    obtain ⟨t, ht⟩ := ih (fun h => hstar (by simp [h])) (fun ds h => hnumeral ds (by simp [h]))
    obtain ⟨u, hu⟩ := ih' (fun h => hstar (by simp [h])) (fun ds h => hnumeral ds (by simp [h]))
    obtain ⟨s, hs⟩ := exists_sign hk fun heq => hstar (by simp [heq])
    rw [← hs]
    exact Spells.exists_join (.signed ht) s hu

end PlainSum

/-! ## Lines -/

namespace Poly
variable {R : PolyRing}

/-- A line without stars that is read over an exact domain is blank or a plain sum. Where no
variable is repeated in a monomial, the polynomial denotes the value of the sum, and the well-formed
polynomials equal to it are those that do. The value is the ordinary one when no run of several
monomials has a minus sign in front. -/
theorem read_plain (hexact : R.domain ≠ .real) {text : List Char} {p : Poly R} {ts : List Token}
    (hp : Poly.read R text = .ok p) (hts : (Line.scan alphabet text).statement = .ok ts)
    (hstar : .mark .star ∉ ts) :
    (ts = [] ∧ p.denote = 0 ∨ ∃ t, PlainSum.Spells R .sum t ts) ∧
    ∀ t, PlainSum.Spells R .sum t ts → t.Distinct →
      p.denote = t.value ∧ (∀ q : Poly R, q.WellFormed → (p.same q = true ↔ q.denote = t.value)) ∧
      (t.Neutral → p.denote = t.ordinary) := by
  obtain ⟨ts', e, hts', he, hunique, hdenote, hsame⟩ := Poly.read_meaning hexact hp
  obtain rfl : ts' = ts := Except.ok.inj (hts'.symm.trans hts)
  have hscanned := Line.scanned_statement hts
  refine ⟨?_, fun t ht hdistinct => ?_⟩
  · cases he with
    | blank => exact .inl ⟨rfl, hdenote⟩
    | sum he =>
      obtain ⟨cs, hcs, hderives⟩ := derives_of_reads he
      rw [List.append_nil] at hcs
      subst hcs
      exact .inr (PlainSum.exists_spells hderives hstar hscanned.1)
  · have hreadable := PlainSum.readable hexact ht hdistinct
    obtain ⟨e', he', hmeaning⟩ := hreadable.closed not_continuesRun_nil
    rw [List.append_nil] at he'
    obtain rfl := hunique e' (.sum he')
    rw [hmeaning] at hdenote hsame
    refine ⟨hdenote, hsame, fun hneutral => ?_⟩
    rw [hdenote, PlainSum.value_eq_ordinary hneutral]

/-- After `3` the minus sign starts a new operand, the run of `-x` and `y`, and applies to both. -/
theorem read_plain_run :
    let R : PolyRing := ⟨.rational, ['x', 'y'], by simp, by simp, by simp [alphabet]⟩
    let text := ['3', ' ', '-', ' ', '-', 'x', ' ', '+', ' ', 'y']
    let ts : List Token := [.number ['3'], .mark .minus, .mark .minus, .letter 'x', .mark .plus,
      .letter 'y']
    let t : PlainSum R := .join .plus
      (.join .minus (.monomial (Literal.value ['3']) []) (.neg (.monomial 1 [(⟨0, by decide⟩, 1)])))
      (.monomial 1 [(⟨1, by decide⟩, 1)])
    let p : Poly R := ⟨[⟨(1 : ℚ), [1, 0]⟩, ⟨(-1 : ℚ), [0, 1]⟩, ⟨(3 : ℚ), [0, 0]⟩]⟩
    R.domain ≠ .real ∧ Poly.read R text = .ok p ∧
      (Line.scan alphabet text).statement = .ok ts ∧ .mark .star ∉ ts ∧
      PlainSum.Spells R .sum t ts ∧ t.Distinct ∧ p.denote = t.value := by
  intro R text ts t p
  have hexact : R.domain ≠ .real := by decide
  have hread : Poly.read R text = .ok p := by
    cbv
  have hts : (Line.scan alphabet text).statement = .ok ts := by
    cbv
  have hstar : .mark .star ∉ ts := by decide
  have hthree : PlainSum.Spells R .sum (.monomial (Literal.value ['3']) []) [.number ['3']] :=
    .signed (.operand (.number (.whole ⟨List.cons_ne_nil _ _, List.forall_mem_singleton.2 rfl⟩)
      ⟨by decide, by decide⟩ .nil))
  have hx : PlainSum.Spells R .signed (.monomial 1 [(⟨0, by decide⟩, 1)]) [.letter 'x'] :=
    .operand (.letters (List.cons_ne_nil _ _) (.plain ⟨0, by decide⟩ .nil))
  have hy : PlainSum.Spells R .signed (.monomial 1 [(⟨1, by decide⟩, 1)]) [.letter 'y'] :=
    .operand (.letters (List.cons_ne_nil _ _) (.plain ⟨1, by decide⟩ .nil))
  have ht : PlainSum.Spells R .sum t ts :=
    .join (s := .plus) (.join (s := .minus) hthree (.minus hx)) hy
  have hdistinct : t.Distinct := by
    simp [t, PlainSum.Distinct]
  obtain ⟨-, hvalue⟩ := read_plain hexact hread hts hstar
  exact ⟨hexact, hread, hts, hstar, ht, hdistinct, (hvalue t ht hdistinct).1⟩

/-- After a group the minus sign applies to the whole run `y + z`, so this line is not read as its
ordinary value. -/
theorem read_not_ordinary :
    let R : PolyRing := ⟨.integer, ['x', 'y', 'z'], by simp, by simp, by simp [alphabet]⟩
    let text := ['(', 'x', ')', ' ', '-', ' ', 'y', ' ', '+', ' ', 'z']
    let ts : List Token := [.mark .opening, .letter 'x', .mark .closing, .mark .minus, .letter 'y',
      .mark .plus, .letter 'z']
    let t : PlainSum R := .join .plus
      (.join .minus (.group (.monomial 1 [(⟨0, by decide⟩, 1)]))
        (.monomial 1 [(⟨1, by decide⟩, 1)]))
      (.monomial 1 [(⟨2, by decide⟩, 1)])
    let p : Poly R := ⟨[⟨(1 : Int), [1, 0, 0]⟩, ⟨(-1 : Int), [0, 1, 0]⟩, ⟨(-1 : Int), [0, 0, 1]⟩]⟩
    let q : Poly R := ⟨[⟨(1 : Int), [1, 0, 0]⟩, ⟨(-1 : Int), [0, 1, 0]⟩, ⟨(1 : Int), [0, 0, 1]⟩]⟩
    R.domain ≠ .real ∧ Poly.read R text = .ok p ∧
      (Line.scan alphabet text).statement = .ok ts ∧ .mark .star ∉ ts ∧
      PlainSum.Spells R .sum t ts ∧ t.Distinct ∧
      q.denote = t.ordinary ∧ p.same q = false ∧ p.denote ≠ t.ordinary := by
  intro R text ts t p q
  have hexact : R.domain ≠ .real := by decide
  have hread : Poly.read R text = .ok p := by
    cbv
  have hts : (Line.scan alphabet text).statement = .ok ts := by
    cbv
  have hx : PlainSum.Spells R .sum (.monomial 1 [(⟨0, by decide⟩, 1)]) [.letter 'x'] :=
    .signed (.operand (.letters (List.cons_ne_nil _ _) (.plain ⟨0, by decide⟩ .nil)))
  have hy : PlainSum.Spells R .signed (.monomial 1 [(⟨1, by decide⟩, 1)]) [.letter 'y'] :=
    .operand (.letters (List.cons_ne_nil _ _) (.plain ⟨1, by decide⟩ .nil))
  have hz : PlainSum.Spells R .signed (.monomial 1 [(⟨2, by decide⟩, 1)]) [.letter 'z'] :=
    .operand (.letters (List.cons_ne_nil _ _) (.plain ⟨2, by decide⟩ .nil))
  have ht : PlainSum.Spells R .sum t ts :=
    .join (s := .plus) (.join (s := .minus) (.signed (.operand (.group hx))) hy) hz
  have hdistinct : t.Distinct := by
    simp [t, PlainSum.Distinct]
  have hp : p.WellFormed := ⟨by unfold Ordered; decide, by decide⟩
  have hq : q.WellFormed := ⟨by unfold Ordered; decide, by decide⟩
  have hordinary : q.denote = t.ordinary := by
    have hsum : q = ((atSlot ⟨0, by decide⟩).sub (atSlot ⟨1, by decide⟩)).add
        (atSlot ⟨2, by decide⟩) := rfl
    rw [hsum, denote_add hexact, denote_sub hexact, denote_atSlot hexact, denote_atSlot hexact,
      denote_atSlot hexact]
    simp [t, PlainSum.ordinary, Sign.of, sub_eq_add_neg]
  have hsame : p.same q = false := rfl
  refine ⟨hexact, hread, hts, by decide, ht, hdistinct, hordinary, hsame, fun hdenote => ?_⟩
  have heq := (same_iff_denote_eq hexact hp hq).2 (hdenote.trans hordinary.symm)
  rw [hsame] at heq
  cases heq

end Poly
end Multipoly
