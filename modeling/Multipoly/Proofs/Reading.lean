import Multipoly.Expr
import Multipoly.Proofs.Literal
import Multipoly.Proofs.Scanning

/-!
# Readings of tokens

What the tokens of a line say, as a relation between the tokens, the expression that their front
is read as, and the tokens after it:

* sum: `product (('+' | '-') product)*`, joined from the left;
* product: `factor ('*' factor)*`;
* factor: a group with an optional exponent; or a minus sign before a factor, when neither a number
  nor a letter follows the sign; or a run;
* run: `['-'] monomial (('+' | '-') monomial)*`, as long as possible: it goes on past a sign exactly
  when a number or a letter follows, and each sign belongs to the monomial after it;
* monomial: an optional literal, one by default, and letters; the power of a variable is the
  exponent of its last occurrence, one without `^`, and zero when the variable is absent.

The relation does not say how far a group, a product or a sum goes on: a front that ends too early
is a reading too, which the tokens after it then make useless.

Results:
* `Phrase.Reads.taken`: which tokens a reading takes, and that what is left over hardly matters;
* `Phrase.Reads.starts`: how a reading starts.
-/
namespace Multipoly

/-- The token of a sign. -/
def Sign.token : Sign → Token
  | .plus => .mark .plus
  | .minus => .mark .minus

/-- Other marks are no signs. -/
theorem Sign.token_ne_mark {k : Mark} (h : k ≠ .plus) (h' : k ≠ .minus) (s : Sign) :
    .mark k ≠ s.token := by
  cases s with
  | plus => exact fun heq => h (Token.mark.inj heq)
  | minus => exact fun heq => h' (Token.mark.inj heq)

namespace Phrase

/-! ## Monomials -/

/-- The last power that is named for a slot, zero when there is none. -/
def lastPower (factors : List (Nat × Nat)) (slot : Nat) : Nat :=
  (factors.reverse.lookup slot).getD 0

/-- The power vector of letters with their powers. -/
def powersOf (R : PolyRing) (factors : List (Nat × Nat)) : Powers :=
  (List.range R.arity).map (lastPower factors)

variable (R : PolyRing)

/-- Letters with their powers, each by its slot. -/
inductive Letters : List Token → List (Nat × Nat) → List Token → Prop
  | nil (ts : List Token) : Letters ts [] ts
  | plain {v : Char} {slot : Nat} {ts rest : List Token} {fs : List (Nat × Nat)}
      (hv : R.slot? v = some slot) (h : Letters ts fs rest) :
      Letters (.letter v :: ts) ((slot, 1) :: fs) rest
  | raised {v : Char} {slot : Nat} {ds : List Char} {ts rest : List Token} {fs : List (Nat × Nat)}
      (hv : R.slot? v = some slot) (he : Literal.IsExponent ds) (h : Letters ts fs rest) :
      Letters (.letter v :: .mark .caret :: .number ds :: ts)
        ((slot, Literal.natural ds) :: fs) rest

/-- A monomial without a sign. -/
inductive Unsigned : List Token → Monomial R → List Token → Prop
  | number {ds : List Char} {ts rest : List Token} {fs : List (Nat × Nat)}
      (hd : Literal.Accepts R.domain ds) (h : Letters R ts fs rest) :
      Unsigned (.number ds :: ts) ⟨Literal.number R.domain ds, powersOf R fs⟩ rest
  | letters {ts rest : List Token} {fs : List (Nat × Nat)} (hne : fs ≠ [])
      (h : Letters R ts fs rest) : Unsigned ts ⟨1, powersOf R fs⟩ rest

/-! ## Runs -/

/-- A sign stands in front of a number or a letter. -/
def ContinuesRun (ts : List Token) : Prop :=
  ∃ (s : Sign) (t : Token) (rest : List Token), ts = s.token :: t :: rest ∧ t.startsMonomial = true

theorem continuesRun_cons {s : Sign} {ts : List Token} :
    ContinuesRun (s.token :: ts) ↔ (ts.headD .finish).startsMonomial = true := by
  constructor
  · intro hrun
    obtain ⟨s', t, rest, heq, ht⟩ := hrun
    rw [List.cons.injEq] at heq
    rw [heq.2]
    exact ht
  · intro h
    cases ts with
    | nil => cases h
    | cons t ts => exact ⟨s, t, ts, rfl, h⟩

/-- The part of a run after its first monomial, as long as possible. -/
inductive RunRest : List Token → Run R → List Token → Prop
  | stop {ts : List Token} (h : ¬ ContinuesRun ts) : RunRest ts [] ts
  | next {s : Sign} {m : Monomial R} {ms : Run R} {ts us rest : List Token}
      (hm : Unsigned R ts m us) (h : RunRest us ms rest) :
      RunRest (s.token :: ts) ((s, m) :: ms) rest

/-! ## Expressions -/

/-- The kinds of phrases. -/
inductive Level where
  | factor
  | product
  | sum

/-- The readings of phrases. -/
inductive Reads : Level → List Token → Expr R → List Token → Prop
  | run {m : Monomial R} {ms : Run R} {ts us rest : List Token}
      (hm : Unsigned R ts m us) (h : RunRest R us ms rest) :
      Reads .factor ts (.run ((.plus, m) :: ms)) rest
  | minusRun {m : Monomial R} {ms : Run R} {ts us rest : List Token}
      (hm : Unsigned R ts m us) (h : RunRest R us ms rest) :
      Reads .factor (.mark .minus :: ts) (.run ((.minus, m) :: ms)) rest
  | neg {e : Expr R} {ts rest : List Token} (ht : ∀ t ∈ ts.head?, t.startsMonomial = false)
      (h : Reads .factor ts e rest) : Reads .factor (.mark .minus :: ts) (.neg e) rest
  | group {e : Expr R} {ts rest : List Token} (h : Reads .sum ts e (.mark .closing :: rest)) :
      Reads .factor (.mark .opening :: ts) e rest
  | power {e : Expr R} {ds : List Char} {ts rest : List Token} (hd : Literal.IsExponent ds)
      (h : Reads .sum ts e (.mark .closing :: .mark .caret :: .number ds :: rest)) :
      Reads .factor (.mark .opening :: ts) (.pow e (Literal.natural ds)) rest
  | factor {e : Expr R} {ts rest : List Token} (h : Reads .factor ts e rest) :
      Reads .product ts e rest
  | mul {e e' : Expr R} {ts us rest : List Token} (h : Reads .product ts e (.mark .star :: us))
      (h' : Reads .factor us e' rest) : Reads .product ts (.mul e e') rest
  | product {e : Expr R} {ts rest : List Token} (h : Reads .product ts e rest) :
      Reads .sum ts e rest
  | join {s : Sign} {e e' : Expr R} {ts us rest : List Token}
      (h : Reads .sum ts e (s.token :: us)) (h' : Reads .product us e' rest) :
      Reads .sum ts (s.join e e') rest

/-- The reading of all tokens of a statement. A statement without tokens is an empty run. -/
inductive Whole : List Token → Expr R → Prop
  | blank : Whole [] (.run [])
  | sum {e : Expr R} {ts : List Token} (h : Reads R .sum ts e []) : Whole ts e

variable {R} {ts rest : List Token} {fs : List (Nat × Nat)} {m : Monomial R} {ms : Run R}
  {e : Expr R} {l : Level}

/-! ## What is taken -/

/-- A token that is no sign continues no run. -/
theorem not_continuesRun {t : Token} (ht : ∀ s : Sign, t ≠ s.token) : ¬ ContinuesRun (t :: ts) := by
  intro hrun
  obtain ⟨s, u, us, heq, -⟩ := hrun
  rw [List.cons.injEq] at heq
  exact ht s heq.1

theorem not_continuesRun_nil : ¬ ContinuesRun [] := by
  intro hrun
  obtain ⟨_, _, _, heq, -⟩ := hrun
  cases heq

/-- So does no mark that is no sign. -/
theorem not_continuesRun_mark {k : Mark} (h : k ≠ .plus) (h' : k ≠ .minus) :
    ¬ ContinuesRun (.mark k :: ts) := not_continuesRun (Sign.token_ne_mark h h')

theorem Letters.taken (h : Letters R ts fs rest) :
    ∃ cs, ts = cs ++ rest ∧ .newline ∉ cs ∧ ∀ rest', Letters R (cs ++ rest') fs rest' := by
  induction h with
  | nil ts => exact ⟨[], rfl, by simp, .nil⟩
  | plain hv _ ih =>
    obtain ⟨cs, rfl, hcs, hmove⟩ := ih
    exact ⟨_ :: cs, rfl, by simpa using hcs, fun rest' => .plain hv (hmove rest')⟩
  | raised hv he _ ih =>
    obtain ⟨cs, rfl, hcs, hmove⟩ := ih
    exact ⟨_ :: _ :: _ :: cs, rfl, by simpa using hcs, fun rest' => .raised hv he (hmove rest')⟩

theorem Unsigned.taken (h : Unsigned R ts m rest) :
    ∃ cs, ts = cs ++ rest ∧ .newline ∉ cs ∧ cs ≠ [] ∧
      ∀ rest', Unsigned R (cs ++ rest') m rest' := by
  cases h with
  | number hd h =>
    obtain ⟨cs, rfl, hcs, hmove⟩ := h.taken
    exact ⟨_ :: cs, rfl, by simpa using hcs, List.cons_ne_nil _ _,
      fun rest' => .number hd (hmove rest')⟩
  | letters hne h =>
    obtain ⟨cs, rfl, hcs, hmove⟩ := h.taken
    refine ⟨cs, rfl, hcs, ?_, fun rest' => .letters hne (hmove rest')⟩
    intro heq
    subst heq
    cases hmove [] with
    | nil _ => exact hne rfl

theorem RunRest.taken (h : RunRest R ts ms rest) :
    ∃ cs, ts = cs ++ rest ∧ .newline ∉ cs ∧
      ∀ rest', (ContinuesRun rest' → ContinuesRun rest) → RunRest R (cs ++ rest') ms rest' := by
  induction h with
  | stop hstop => exact ⟨[], rfl, by simp, fun _ hr => .stop fun h => hstop (hr h)⟩
  | @next s m ms ts us rest hm _ ih =>
    obtain ⟨cs, rfl, hcs, -, hmove⟩ := hm.taken
    obtain ⟨ds, rfl, hds, hmove'⟩ := ih
    refine ⟨s.token :: (cs ++ ds), by simp, ?_, fun rest' hr => ?_⟩
    · cases s <;> simp [Sign.token, hcs, hds]
    · rw [List.cons_append, List.append_assoc]
      exact .next (hmove _) (hmove' rest' hr)

/-- A reading takes some tokens, none of them a line break, and takes them from any other rest too
that does not go on with a run where the first one does not. -/
theorem Reads.taken (h : Reads R l ts e rest) :
    ∃ cs, ts = cs ++ rest ∧ .newline ∉ cs ∧ cs ≠ [] ∧
      ∀ rest', (ContinuesRun rest' → ContinuesRun rest) → Reads R l (cs ++ rest') e rest' := by
  induction h with
  | run hm h =>
    obtain ⟨cs, rfl, hcs, hne, hmove⟩ := hm.taken
    obtain ⟨ds, rfl, hds, hmove'⟩ := h.taken
    refine ⟨cs ++ ds, by simp, by simp [hcs, hds], by simp [hne], fun rest' hr => ?_⟩
    rw [List.append_assoc]
    exact .run (hmove _) (hmove' rest' hr)
  | minusRun hm h =>
    obtain ⟨cs, rfl, hcs, -, hmove⟩ := hm.taken
    obtain ⟨ds, rfl, hds, hmove'⟩ := h.taken
    refine ⟨.mark .minus :: (cs ++ ds), by simp, by simp [hcs, hds], by simp, fun rest' hr => ?_⟩
    rw [List.cons_append, List.append_assoc]
    exact .minusRun (hmove _) (hmove' rest' hr)
  | neg ht h ih =>
    obtain ⟨cs, rfl, hcs, hne, hmove⟩ := ih
    refine ⟨.mark .minus :: cs, by simp, by simpa using hcs, by simp, fun rest' hr => ?_⟩
    refine .neg (fun t hhead => ht t ?_) (hmove rest' hr)
    obtain ⟨c, cs, rfl⟩ := List.exists_cons_of_ne_nil hne
    exact hhead
  | group h ih =>
    obtain ⟨cs, rfl, hcs, -, hmove⟩ := ih
    refine ⟨.mark .opening :: (cs ++ [.mark .closing]), by simp, by simp [hcs], by simp,
      fun rest' _ => ?_⟩
    rw [List.cons_append, List.append_assoc]
    exact .group (hmove _ fun hr => absurd hr (not_continuesRun_mark (by decide) (by decide)))
  | @power e ds ts rest hd h ih =>
    obtain ⟨cs, rfl, hcs, -, hmove⟩ := ih
    refine ⟨.mark .opening :: (cs ++ [.mark .closing, .mark .caret, .number ds]), by simp,
      by simp [hcs], by simp, fun rest' _ => ?_⟩
    rw [List.cons_append, List.append_assoc]
    exact .power hd (hmove _ fun hr => absurd hr (not_continuesRun_mark (by decide) (by decide)))
  | factor _ ih =>
    obtain ⟨cs, rfl, hcs, hne, hmove⟩ := ih
    exact ⟨cs, rfl, hcs, hne, fun rest' hr => .factor (hmove rest' hr)⟩
  | mul _ _ ih ih' =>
    obtain ⟨cs, rfl, hcs, hne, hmove⟩ := ih
    obtain ⟨ds, rfl, hds, -, hmove'⟩ := ih'
    refine ⟨cs ++ .mark .star :: ds, by simp, by simp [hcs, hds], by simp, fun rest' hr => ?_⟩
    rw [List.append_assoc]
    exact .mul (hmove _ fun hr => absurd hr (not_continuesRun_mark (by decide) (by decide)))
      (hmove' rest' hr)
  | product _ ih =>
    obtain ⟨cs, rfl, hcs, hne, hmove⟩ := ih
    exact ⟨cs, rfl, hcs, hne, fun rest' hr => .product (hmove rest' hr)⟩
  | @join s e e' ts us rest _ _ ih ih' =>
    obtain ⟨cs, rfl, hcs, hne, hmove⟩ := ih
    obtain ⟨ds, rfl, hds, hne', hmove'⟩ := ih'
    refine ⟨cs ++ s.token :: ds, by simp, ?_, by simp, fun rest' hr => ?_⟩
    · cases s <;> simp [Sign.token, hcs, hds]
    · rw [List.append_assoc]
      refine .join (hmove _ fun hc => ?_) (hmove' rest' hr)
      obtain ⟨d, ds, rfl⟩ := List.exists_cons_of_ne_nil hne'
      rw [List.cons_append, continuesRun_cons] at hc
      exact continuesRun_cons.2 hc

theorem Letters.suffix (h : Letters R ts fs rest) : rest <:+ ts :=
  have ⟨cs, hts, _⟩ := h.taken
  ⟨cs, hts.symm⟩

theorem Unsigned.suffix (h : Unsigned R ts m rest) : rest <:+ ts :=
  have ⟨cs, hts, _⟩ := h.taken
  ⟨cs, hts.symm⟩

theorem RunRest.suffix (h : RunRest R ts ms rest) : rest <:+ ts :=
  have ⟨cs, hts, _⟩ := h.taken
  ⟨cs, hts.symm⟩

theorem Reads.suffix (h : Reads R l ts e rest) : rest <:+ ts :=
  have ⟨cs, hts, _⟩ := h.taken
  ⟨cs, hts.symm⟩

/-! ## How readings start -/

theorem Unsigned.starts (h : Unsigned R ts m rest) :
    ∃ t us, ts = t :: us ∧ t.startsMonomial = true := by
  cases h with
  | number _ _ => exact ⟨_, _, rfl, rfl⟩
  | letters hne h =>
    cases h with
    | nil _ => exact absurd rfl hne
    | plain _ _ => exact ⟨_, _, rfl, rfl⟩
    | raised _ _ _ => exact ⟨_, _, rfl, rfl⟩

/-- An operand starts with a number, a letter, a minus sign or a parenthesis. -/
def StartsOperand (t : Token) : Prop :=
  t.startsMonomial = true ∨ t = .mark .minus ∨ t = .mark .opening

theorem Reads.starts (h : Reads R l ts e rest) : ∃ t us, ts = t :: us ∧ StartsOperand t := by
  induction h with
  | run hm _ =>
    obtain ⟨t, us, rfl, ht⟩ := hm.starts
    exact ⟨t, us, rfl, .inl ht⟩
  | minusRun _ _ => exact ⟨_, _, rfl, .inr (.inl rfl)⟩
  | neg _ _ _ => exact ⟨_, _, rfl, .inr (.inl rfl)⟩
  | group _ _ => exact ⟨_, _, rfl, .inr (.inr rfl)⟩
  | power _ _ _ => exact ⟨_, _, rfl, .inr (.inr rfl)⟩
  | factor _ ih => exact ih
  | mul _ _ ih _ => exact ih
  | product _ ih => exact ih
  | join _ _ ih _ => exact ih

end Phrase
end Multipoly
