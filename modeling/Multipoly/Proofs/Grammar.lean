import Multipoly.Proofs.Statement

/-!
# The accepted lines

The lines that are read as polynomials, by a grammar that knows nothing of runs and of the tokens
that the parser looks at ahead:

* sum: `signed (('+' | '-' | '*') signed)*`;
* signed: `'-'* operand`;
* operand: `'(' sum ')' ['^' exponent]`, or a monomial;
* monomial: `number variable*`, or `variable variable*`;
* variable: a letter of the ring with an optional `'^' exponent`.

Results:
* `Grammar.derives_of_reads`: what a reading takes is a sum;
* `Grammar.exists_reads`: every sum has a reading;
* `Grammar.read_isOk_iff_derives`: a line is read as a polynomial exactly when its statement is
  blank or a sum.
-/
namespace Multipoly.Grammar
open Phrase

variable (R : PolyRing)

/-- Variables with optional exponents, as many as there are. -/
inductive Variables : List Token → Prop
  | nil : Variables []
  | plain {v : Char} {ts : List Token} (hv : v ∈ R.vars) (h : Variables ts) :
      Variables (.letter v :: ts)
  | raised {v : Char} {ds : List Char} {ts : List Token} (hv : v ∈ R.vars)
      (hd : Literal.IsExponent ds) (h : Variables ts) :
      Variables (.letter v :: .mark .caret :: .number ds :: ts)

/-- A number that the domain accepts with variables, or variables alone. -/
inductive IsMonomial : List Token → Prop
  | number {ds : List Char} {ts : List Token} (hd : Literal.Accepts R.domain ds)
      (h : Variables R ts) : IsMonomial (.number ds :: ts)
  | letters {ts : List Token} (hne : ts ≠ []) (h : Variables R ts) : IsMonomial ts

/-- The operators that join operands. -/
def Joins (k : Mark) : Prop := k = .plus ∨ k = .minus ∨ k = .star

/-- The parts of the grammar that contain each other. -/
inductive Part where
  | operand
  | signed
  | sum

/-- The tokens of each part. -/
inductive Derives : Part → List Token → Prop
  | monomial {ts : List Token} (h : IsMonomial R ts) : Derives .operand ts
  | group {ts : List Token} (h : Derives .sum ts) :
      Derives .operand (.mark .opening :: (ts ++ [.mark .closing]))
  | power {ts : List Token} {ds : List Char} (h : Derives .sum ts) (hd : Literal.IsExponent ds) :
      Derives .operand
        (.mark .opening :: (ts ++ [.mark .closing, .mark .caret, .number ds]))
  | operand {ts : List Token} (h : Derives .operand ts) : Derives .signed ts
  | minus {ts : List Token} (h : Derives .signed ts) : Derives .signed (.mark .minus :: ts)
  | signed {ts : List Token} (h : Derives .signed ts) : Derives .sum ts
  | join {ts us : List Token} {k : Mark} (h : Derives .signed ts) (hk : Joins k)
      (h' : Derives .sum us) : Derives .sum (ts ++ .mark k :: us)

variable {R} {ts us rest : List Token} {e : Expr R}

theorem joins_sign (s : Sign) : ∃ k, s.token = .mark k ∧ Joins k := by
  cases s with
  | plus => exact ⟨.plus, rfl, .inl rfl⟩
  | minus => exact ⟨.minus, rfl, .inr (.inl rfl)⟩

/-! ## From readings to the grammar -/

theorem Derives.sum_append {k : Mark} (h : Derives R .sum ts) (hk : Joins k)
    (h' : Derives R .sum us) : Derives R .sum (ts ++ .mark k :: us) := by
  generalize hp : Part.sum = part at h
  induction h with
  | signed h _ => exact .join h hk h'
  | @join ts₁ ts₂ k₁ h hk₁ _ _ ih =>
    rw [List.append_assoc]
    exact .join h hk₁ (ih hp)
  | _ => cases hp

/-- A minus sign in front of a sum is one in front of its first operand. -/
theorem Derives.minus_sum (h : Derives R .sum ts) : Derives R .sum (.mark .minus :: ts) := by
  cases h with
  | signed h => exact .signed (.minus h)
  | join h hk h' => exact .join (.minus h) hk h'

theorem Derives.of_monomial (h : IsMonomial R ts) : Derives R .sum ts :=
  .signed (.operand (.monomial h))

theorem variables_of_letters {fs : List (Nat × Nat)} (h : Letters R ts fs rest) :
    ∃ cs, ts = cs ++ rest ∧ Variables R cs ∧ (fs ≠ [] → cs ≠ []) := by
  induction h with
  | nil ts => exact ⟨[], rfl, .nil, fun h => absurd rfl h⟩
  | plain hv _ ih =>
    obtain ⟨cs, rfl, hcs, -⟩ := ih
    exact ⟨_ :: cs, rfl, .plain (R.exists_slot_iff.1 ⟨_, hv⟩) hcs, fun _ => List.cons_ne_nil _ _⟩
  | raised hv hd _ ih =>
    obtain ⟨cs, rfl, hcs, -⟩ := ih
    exact ⟨_ :: _ :: _ :: cs, rfl, .raised (R.exists_slot_iff.1 ⟨_, hv⟩) hd hcs,
      fun _ => List.cons_ne_nil _ _⟩

theorem isMonomial_of_unsigned {m : Monomial R} (h : Unsigned R ts m rest) :
    ∃ cs, ts = cs ++ rest ∧ IsMonomial R cs := by
  cases h with
  | number hd h =>
    obtain ⟨cs, rfl, hcs, -⟩ := variables_of_letters h
    exact ⟨_ :: cs, rfl, .number hd hcs⟩
  | letters hne h =>
    obtain ⟨cs, rfl, hcs, hne'⟩ := variables_of_letters h
    exact ⟨cs, rfl, .letters (hne' hne) hcs⟩

/-- A monomial with the run after it is a sum. -/
theorem derives_of_run {m : Monomial R} {ms : Run R} (hm : Unsigned R ts m us)
    (h : RunRest R us ms rest) : ∃ cs, ts = cs ++ rest ∧ Derives R .sum cs := by
  induction h generalizing ts m with
  | stop _ =>
    obtain ⟨cs, rfl, hcs⟩ := isMonomial_of_unsigned hm
    exact ⟨cs, rfl, .of_monomial hcs⟩
  | @next s m' ms us vs rest hm' _ ih =>
    obtain ⟨cs, rfl, hcs⟩ := isMonomial_of_unsigned hm
    obtain ⟨ds, rfl, hds⟩ := ih hm'
    obtain ⟨k, hs, hk⟩ := joins_sign s
    rw [hs]
    exact ⟨cs ++ .mark k :: ds, by simp, .join (.operand (.monomial hcs)) hk hds⟩

/-- What a reading takes is a sum. -/
theorem derives_of_reads {l : Level} (h : Reads R l ts e rest) :
    ∃ cs, ts = cs ++ rest ∧ Derives R .sum cs := by
  induction h with
  | run hm h => exact derives_of_run hm h
  | minusRun hm h =>
    obtain ⟨cs, rfl, hcs⟩ := derives_of_run hm h
    exact ⟨.mark .minus :: cs, rfl, hcs.minus_sum⟩
  | neg _ _ ih =>
    obtain ⟨cs, rfl, hcs⟩ := ih
    exact ⟨.mark .minus :: cs, rfl, hcs.minus_sum⟩
  | group _ ih =>
    obtain ⟨cs, rfl, hcs⟩ := ih
    exact ⟨.mark .opening :: (cs ++ [.mark .closing]), by simp, .signed (.operand (.group hcs))⟩
  | @power e ds ts rest hd _ ih =>
    obtain ⟨cs, rfl, hcs⟩ := ih
    exact ⟨.mark .opening :: (cs ++ [.mark .closing, .mark .caret, .number ds]), by simp,
      .signed (.operand (.power hcs hd))⟩
  | factor _ ih => exact ih
  | mul _ _ ih ih' =>
    obtain ⟨cs, rfl, hcs⟩ := ih
    obtain ⟨ds, rfl, hds⟩ := ih'
    exact ⟨cs ++ .mark .star :: ds, by simp, hcs.sum_append (.inr (.inr rfl)) hds⟩
  | product _ ih => exact ih
  | @join s e e' ts us rest _ _ ih ih' =>
    obtain ⟨cs, rfl, hcs⟩ := ih
    obtain ⟨ds, rfl, hds⟩ := ih'
    obtain ⟨k, hs, hk⟩ := joins_sign s
    rw [hs]
    exact ⟨cs ++ .mark k :: ds, by simp, hcs.sum_append hk hds⟩

/-! ## From the grammar to readings -/

/-- What is left of a sum after its first operands: nothing, or an operator and a sum. -/
def Remains (R : PolyRing) (ts : List Token) : Prop :=
  ts = [] ∨ ∃ k us, ts = .mark k :: us ∧ Joins k ∧ Derives R .sum us

/-- A sum is a signed operand and what remains. -/
theorem Derives.split (h : Derives R .sum ts) :
    ∃ cs mid, ts = cs ++ mid ∧ Derives R .signed cs ∧ Remains R mid := by
  cases h with
  | signed h => exact ⟨ts, [], by simp, h, .inl rfl⟩
  | join h hk h' => exact ⟨_, _, rfl, h, .inr ⟨_, _, rfl, hk, h'⟩⟩

theorem letters_of_variables (h : Variables R ts) (rest : List Token) :
    ∃ fs, Letters R (ts ++ rest) fs rest ∧ (ts ≠ [] → fs ≠ []) := by
  induction h with
  | nil => exact ⟨[], .nil rest, fun h => absurd rfl h⟩
  | plain hv _ ih =>
    obtain ⟨slot, hslot⟩ := R.exists_slot_iff.2 hv
    obtain ⟨fs, hfs, -⟩ := ih
    exact ⟨_ :: fs, .plain hslot hfs, fun _ => List.cons_ne_nil _ _⟩
  | raised hv hd _ ih =>
    obtain ⟨slot, hslot⟩ := R.exists_slot_iff.2 hv
    obtain ⟨fs, hfs, -⟩ := ih
    exact ⟨_ :: fs, .raised hslot hd hfs, fun _ => List.cons_ne_nil _ _⟩

theorem unsigned_of_isMonomial (h : IsMonomial R ts) (rest : List Token) :
    ∃ m, Unsigned R (ts ++ rest) m rest := by
  cases h with
  | number hd h =>
    obtain ⟨fs, hfs, -⟩ := letters_of_variables h rest
    exact ⟨_, .number hd hfs⟩
  | letters hne h =>
    obtain ⟨fs, hfs, hne'⟩ := letters_of_variables h rest
    exact ⟨_, .letters (hne' hne) hfs⟩

/-- An operand that starts with a number or a letter is a monomial. -/
theorem Derives.isMonomial {t : Token} (h : Derives R .signed (t :: ts))
    (ht : t.startsMonomial = true) : IsMonomial R (t :: ts) := by
  cases h with
  | operand h =>
    cases h with
    | monomial h => exact h
    | group _ => cases ht
    | power _ _ => cases ht
  | minus _ => cases ht

theorem Variables.starts {t : Token} (h : Variables R (t :: ts)) : t.startsMonomial = true := by
  cases h <;> rfl

theorem IsMonomial.starts (h : IsMonomial R ts) :
    ∃ t us, ts = t :: us ∧ t.startsMonomial = true := by
  cases h with
  | number _ _ => exact ⟨_, _, rfl, rfl⟩
  | letters hne h =>
    obtain ⟨t, us, rfl⟩ := List.exists_cons_of_ne_nil hne
    exact ⟨t, us, rfl, h.starts⟩

theorem Derives.ne_nil {p : Part} (h : Derives R p ts) : ts ≠ [] := by
  induction h with
  | monomial h =>
    obtain ⟨_, _, rfl, -⟩ := h.starts
    exact List.cons_ne_nil _ _
  | group _ _ => exact List.cons_ne_nil _ _
  | power _ _ _ => exact List.cons_ne_nil _ _
  | operand _ ih => exact ih
  | minus _ _ => exact List.cons_ne_nil _ _
  | signed _ ih => exact ih
  | join _ _ _ _ _ => simp

/-- A run stops somewhere between the operands of a sum. -/
theorem exists_runRest (hrest : ¬ ContinuesRun rest) {mid : List Token} (hmid : Remains R mid) :
    ∃ ms mid', RunRest R (mid ++ rest) ms (mid' ++ rest) ∧ Remains R mid' ∧
      mid'.length ≤ mid.length := by
  induction hn : mid.length using Nat.strongRecOn generalizing mid with
  | ind n ih =>
    by_cases hrun : ContinuesRun (mid ++ rest)
    · obtain ⟨s, t, us, heq, ht⟩ := hrun
      rcases hmid with rfl | ⟨k, vs, rfl, -, hvs⟩
      · exact absurd ⟨s, t, us, heq, ht⟩ hrest
      · -- The token after the sign is the first one of the next operand, which is a monomial.
        obtain ⟨cs, mid, rfl, hcs, hmid⟩ := hvs.split
        obtain ⟨c, cs, rfl⟩ := List.exists_cons_of_ne_nil hcs.ne_nil
        simp only [List.cons_append, List.cons.injEq] at heq
        obtain ⟨hk, rfl, -⟩ := heq
        obtain ⟨m, hm⟩ := unsigned_of_isMonomial (hcs.isMonomial ht) (mid ++ rest)
        have hlt : mid.length < n := by
          rw [← hn]
          simp only [List.length_cons, List.length_append]
          omega
        obtain ⟨ms, mid', hms, hmid', hle⟩ := ih mid.length hlt hmid rfl
        refine ⟨(s, m) :: ms, mid', ?_, hmid', by omega⟩
        rw [List.cons_append, hk, List.append_assoc]
        exact .next hm hms
    · exact ⟨[], mid, .stop hrun, hmid, Nat.le_of_eq hn⟩

/-- A run that starts with a monomial of a sum. -/
theorem exists_run (hrest : ¬ ContinuesRun rest) {mid : List Token} (hmid : Remains R mid)
    (h : IsMonomial R ts) :
    ∃ m ms mid', Unsigned R (ts ++ (mid ++ rest)) m (mid ++ rest) ∧
      RunRest R (mid ++ rest) ms (mid' ++ rest) ∧ Remains R mid' ∧ mid'.length ≤ mid.length := by
  obtain ⟨m, hm⟩ := unsigned_of_isMonomial h (mid ++ rest)
  obtain ⟨ms, mid', hms, hmid', hle⟩ := exists_runRest hrest hmid
  exact ⟨m, ms, mid', hm, hms, hmid', hle⟩

/-- Every sum of fewer than `n` tokens has a reading. -/
def ReadsBelow (R : PolyRing) (n : Nat) : Prop :=
  ∀ ts rest, ts.length < n → Derives R .sum ts → ¬ ContinuesRun rest →
    ∃ e, Reads R .sum (ts ++ rest) e rest

/-- The first factor of what starts with a signed operand, which may take more than the operand. -/
theorem exists_factor {n : Nat} (ih : ReadsBelow R n) (hrest : ¬ ContinuesRun rest)
    {cs mid : List Token} (hlen : cs.length ≤ n) (hcs : Derives R .signed cs)
    (hmid : Remains R mid) :
    ∃ e mid', Reads R .factor (cs ++ (mid ++ rest)) e (mid' ++ rest) ∧ Remains R mid' ∧
      mid'.length ≤ mid.length := by
  generalize hp : Part.signed = part at hcs
  induction hcs with
  | operand h =>
    cases h with
    | monomial h =>
      obtain ⟨m, ms, mid', hm, hms, hmid', hle⟩ := exists_run hrest hmid h
      exact ⟨_, mid', .run hm hms, hmid', hle⟩
    | @group ts h =>
      simp only [List.length_cons, List.length_append] at hlen
      obtain ⟨e, he⟩ := ih ts (.mark .closing :: (mid ++ rest)) (by omega) h
        (not_continuesRun_mark (by decide) (by decide))
      exact ⟨e, mid, by simpa using Reads.group he, hmid, Nat.le_refl _⟩
    | @power ts ds h hd =>
      simp only [List.length_cons, List.length_append] at hlen
      obtain ⟨e, he⟩ := ih ts (.mark .closing :: .mark .caret :: .number ds :: (mid ++ rest))
        (by omega) h (not_continuesRun_mark (by decide) (by decide))
      exact ⟨_, mid, by simpa using Reads.power hd he, hmid, Nat.le_refl _⟩
  | @minus ts h ih' =>
    rw [List.length_cons] at hlen
    obtain ⟨t, ts, rfl⟩ := List.exists_cons_of_ne_nil h.ne_nil
    cases ht : t.startsMonomial with
    | true =>
      obtain ⟨m, ms, mid', hm, hms, hmid', hle⟩ := exists_run hrest hmid (h.isMonomial ht)
      exact ⟨_, mid', .minusRun hm hms, hmid', hle⟩
    | false =>
      obtain ⟨e, mid', he, hmid', hle⟩ := ih' (by omega) rfl
      exact ⟨.neg e, mid', .neg (by simpa using ht) he, hmid', hle⟩
  | _ => cases hp

/-- A product takes the factors that stars join, so it stops at the end or at a sign. -/
theorem exists_product {n : Nat} (ih : ReadsBelow R n) (hrest : ¬ ContinuesRun rest)
    {t₀ mid : List Token} {e₀ : Expr R} (hlen : mid.length ≤ n) (hmid : Remains R mid)
    (h₀ : Reads R .product t₀ e₀ (mid ++ rest)) :
    ∃ e mid', Reads R .product t₀ e (mid' ++ rest) ∧ mid'.length ≤ mid.length ∧
      (mid' = [] ∨ ∃ (s : Sign) (us : List Token), mid' = s.token :: us ∧ Derives R .sum us) := by
  induction hn : mid.length using Nat.strongRecOn generalizing mid e₀ with
  | ind k ihk =>
    rcases hmid with rfl | ⟨op, us, rfl, hop, hus⟩
    · exact ⟨e₀, [], h₀, Nat.zero_le _, .inl rfl⟩
    · rcases hop with rfl | rfl | rfl
      · exact ⟨e₀, _, h₀, Nat.le_of_eq hn, .inr ⟨.plus, us, rfl, hus⟩⟩
      · exact ⟨e₀, _, h₀, Nat.le_of_eq hn, .inr ⟨.minus, us, rfl, hus⟩⟩
      · obtain ⟨cs, mid, rfl, hcs, hmid⟩ := hus.split
        simp only [List.length_cons, List.length_append] at hlen hn
        obtain ⟨e, mid', he, hmid', hle⟩ := exists_factor ih hrest (by omega) hcs hmid
        have hmul : Reads R .product t₀ (.mul e₀ e) (mid' ++ rest) := by
          refine .mul ?_ he
          simpa using h₀
        obtain ⟨e', mid'', he', hle', hmid''⟩ :=
          ihk mid'.length (by omega) (by omega) hmid' hmul rfl
        exact ⟨e', mid'', he', by omega, hmid''⟩

/-- A sum takes everything. -/
theorem exists_sum {n : Nat} (ih : ReadsBelow R n) (hrest : ¬ ContinuesRun rest)
    {t₀ mid : List Token} {e₀ : Expr R} (hlen : mid.length ≤ n)
    (hmid : mid = [] ∨ ∃ (s : Sign) (us : List Token), mid = s.token :: us ∧ Derives R .sum us)
    (h₀ : Reads R .sum t₀ e₀ (mid ++ rest)) : ∃ e, Reads R .sum t₀ e rest := by
  induction hn : mid.length using Nat.strongRecOn generalizing mid e₀ with
  | ind k ihk =>
    rcases hmid with rfl | ⟨s, us, rfl, hus⟩
    · exact ⟨e₀, h₀⟩
    · obtain ⟨cs, mid, rfl, hcs, hmid⟩ := hus.split
      simp only [List.length_cons, List.length_append] at hlen hn
      obtain ⟨e, mid', he, hmid', hle⟩ := exists_factor ih hrest (by omega) hcs hmid
      obtain ⟨e', mid'', he', hle', hmid''⟩ :=
        exists_product ih hrest (by omega) hmid' (.factor he)
      have hjoin : Reads R .sum t₀ (s.join e₀ e') (mid'' ++ rest) := by
        refine .join ?_ he'
        simpa using h₀
      exact ihk mid''.length (by omega) (by omega) hmid'' hjoin rfl

/-- Every sum has a reading that takes all its tokens. -/
theorem exists_reads (h : Derives R .sum ts) (hrest : ¬ ContinuesRun rest) :
    ∃ e, Reads R .sum (ts ++ rest) e rest := by
  induction hn : ts.length using Nat.strongRecOn generalizing ts rest with
  | ind n ih =>
    have hbelow : ReadsBelow R n := fun us rest hus hsum hrest => ih us.length hus hsum hrest rfl
    obtain ⟨cs, mid, rfl, hcs, hmid⟩ := h.split
    rw [List.length_append] at hn
    obtain ⟨e, mid', he, hmid', hle⟩ := exists_factor hbelow hrest (by omega) hcs hmid
    obtain ⟨e', mid'', he', hle', hmid''⟩ :=
      exists_product hbelow hrest (by omega) hmid' (.factor he)
    obtain ⟨e'', he''⟩ := exists_sum hbelow hrest (by omega) hmid'' (.product he')
    exact ⟨e'', by rwa [List.append_assoc]⟩

/-- A line is read as a polynomial exactly when its statement can be scanned and is blank or a sum
of the grammar. -/
theorem read_isOk_iff_derives (R : PolyRing) (text : List Char) :
    (∃ p, Poly.read R text = .ok p) ↔
      ∃ ts, (Line.scan alphabet text).statement = .ok ts ∧ (ts = [] ∨ Derives R .sum ts) := by
  constructor
  · intro hread
    obtain ⟨p, hp⟩ := hread
    obtain ⟨ts, e, hts, hwhole, -⟩ := Poly.read_eq_ok_iff.1 hp
    refine ⟨ts, hts, ?_⟩
    cases hwhole with
    | blank => exact .inl rfl
    | sum h =>
      obtain ⟨cs, rfl, hcs⟩ := derives_of_reads h
      exact .inr (by rwa [List.append_nil])
  · intro hderives
    obtain ⟨ts, hts, rfl | h⟩ := hderives
    · exact ⟨_, Poly.read_eq_ok_iff.2 ⟨[], _, hts, .blank, rfl⟩⟩
    · obtain ⟨e, he⟩ := exists_reads h not_continuesRun_nil
      rw [List.append_nil] at he
      exact ⟨_, Poly.read_eq_ok_iff.2 ⟨ts, e, hts, .sum he, rfl⟩⟩

end Multipoly.Grammar
