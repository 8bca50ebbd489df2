import Multipoly.Proofs.EvaluationLaws

/-!
# Values that are missing

An environment need not give every variable a value. Evaluation asks only for the variables with a
positive power in a non-zero term, term by term and within a term slot by slot, and it fails exactly
when one of them has no value, at the first that has none.

Results:
* `Env.lookup_variableAt`: a lookup, by whether the variable has a value;
* `error?_foldlM`: where a run of steps fails, from where each step fails;
* `Poly.error?_eval`: what evaluation reports;
* `Poly.eval_eq_valueAt`: the value as a sum of products;
* `Poly.eval_partial`: evaluation in any environment.
-/
namespace Multipoly
open MvPolynomial

variable {R : PolyRing}

/-! ## Environments -/

namespace Env
variable (env env' : Env R.Carrier) (i : Fin R.arity)

/-- The value of the variable at a slot, if it has one. -/
def value? : Option R.Carrier :=
  match env with
  | byName values => values.lookup (String.ofList [R.variableAt i])
  | bySlot values => values[(i : Nat)]?

/-- No value is given under the name of the variable, or the list of values ends before its slot. -/
def Lacks : Prop :=
  match env with
  | byName values => String.ofList [R.variableAt i] ∉ values.map Prod.fst
  | bySlot values => values.length ≤ i

instance : Decidable (env.Lacks i) :=
  match env with
  | byName values => inferInstanceAs (Decidable (_ ∉ values.map Prod.fst))
  | bySlot values => inferInstanceAs (Decidable (values.length ≤ (i : Nat)))

/-- What is reported for a variable without a value. -/
def missing : EvalError :=
  match env with
  | byName _ => .unbound (R.variableAt i)
  | bySlot _ => .slotOutOfRange

variable {env env' i}

theorem lacks_iff : env.Lacks i ↔ env.value? i = none := by
  cases env with
  | byName values =>
    show _ ∉ values.map Prod.fst ↔ values.lookup _ = none
    rw [List.lookup_eq_none_iff, List.mem_map, not_exists]
    refine forall_congr' fun entry => not_and.trans (imp_congr_right fun _ => ?_)
    exact (not_congr eq_comm).trans bne_iff_ne.symm
  | bySlot values => exact List.getElem?_eq_none_iff.symm

theorem lookup_variableAt :
    env.lookup (R.variableAt i) i = (env.value? i).elim (.error (env.missing i)) .ok := by
  cases env with
  | byName values =>
    unfold lookup value?
    dsimp only
    cases values.lookup (String.ofList [R.variableAt i]) <;> rfl
  | bySlot values =>
    unfold lookup value?
    dsimp only
    cases values[(i : Nat)]? <;> rfl

theorem lookup_of_lacks (h : env.Lacks i) :
    env.lookup (R.variableAt i) i = .error (env.missing i) := by
  rw [lookup_variableAt, lacks_iff.1 h]
  rfl

theorem lookup_of_value {x : R.Carrier} (h : env.value? i = some x) :
    env.lookup (R.variableAt i) i = .ok x := by
  rw [lookup_variableAt, h]
  rfl

end Env

/-! ## Where a run fails -/

/-- The error of a result that is one. -/
def error? {ε α : Type} : Except ε α → Option ε
  | .error e => some e
  | .ok _ => none

theorem error?_eq_some_iff {ε α : Type} {r : Except ε α} {e : ε} :
    error? r = some e ↔ r = .error e := by
  cases r with
  | error d =>
    exact ⟨fun h => congrArg _ (Option.some.inj h), fun h => congrArg _ (Except.error.inj h)⟩
  | ok a => exact ⟨nofun, nofun⟩

/-- Each step looks at a list of items and fails at the first that is bad. A run of steps fails at
the first bad item of all these lists. -/
theorem error?_foldlM {α β γ ε : Type} {step : β → α → Except ε β} {items : α → List γ}
    {bad : γ → Bool} {report : γ → ε} {as : List α}
    (hstep : ∀ a ∈ as, ∀ b, error? (step b a) = ((items a).find? bad).map report) (b : β) :
    error? (as.foldlM step b) = ((as.flatMap items).find? bad).map report := by
  induction as generalizing b with
  | nil => rfl
  | cons a as ih =>
    have hhead := hstep a List.mem_cons_self b
    have htail := fun c hc => hstep c (List.mem_cons_of_mem a hc)
    rw [List.foldlM_cons, List.flatMap_cons, List.find?_append]
    -- The first item of all that is bad is one of the head's exactly if the head's step fails.
    cases hrun : step b a with
    | error e =>
      rw [hrun] at hhead
      rw [Option.map_or, ← hhead]
      rfl
    | ok c =>
      rw [hrun] at hhead
      rw [Option.map_eq_none_iff.1 hhead.symm, Option.none_or]
      exact ih htail c

/-! ## Terms -/

theorem Domain.toRat_sum {d : Domain} (h : d ≠ .real) (xs : List d.Carrier) :
    toRat d xs.sum = (xs.map (toRat d)).sum := by
  induction xs with
  | nil => exact toRat_zero h
  | cons x xs ih => rw [List.sum_cons, toRat_add h, ih, List.map_cons, List.sum_cons]

theorem Domain.toRat_prod {d : Domain} (h : d ≠ .real) (xs : List d.Carrier) :
    toRat d xs.prod = (xs.map (toRat d)).prod := by
  induction xs with
  | nil => exact toRat_one h
  | cons x xs ih => rw [List.prod_cons, toRat_mul h, ih, List.map_cons, List.prod_cons]

namespace Monomial
variable {m : Monomial R} {env : Env R.Carrier}

/-- The slots with a positive power. -/
def needed (m : Monomial R) : List (Fin R.arity) :=
  (List.finRange R.arity).filter fun i => 0 < m.power i

theorem mem_needed {i : Fin R.arity} : i ∈ m.needed ↔ 0 < m.power i := by
  rw [needed, List.mem_filter, decide_eq_true_iff]
  exact and_iff_right (List.mem_finRange i)

theorem error?_multiplyAt (r : R.Carrier) (i : Fin R.arity) :
    error? (m.multiplyAt env r i) =
      (([i].filter fun j : Fin R.arity => 0 < m.power j).find? (env.Lacks ·)).map env.missing := by
  rw [multiplyAt, List.filter_singleton]
  by_cases hi : m.power i = 0
  · rw [if_pos hi, hi]
    rfl
  · rw [if_neg hi, decide_eq_true (Nat.pos_of_ne_zero hi), cond_true, List.find?_singleton]
    by_cases hlacks : env.Lacks i
    · rw [Env.lookup_of_lacks hlacks, if_pos (decide_eq_true hlacks)]
      rfl
    · obtain ⟨x, hx⟩ := Option.ne_none_iff_exists'.1 (mt Env.lacks_iff.2 hlacks)
      rw [Env.lookup_of_value hx, if_neg (by rwa [decide_eq_true_iff])]
      rfl

theorem error?_eval (hm : m.Fits) :
    error? (m.eval env) = (m.needed.find? (env.Lacks ·)).map env.missing := by
  have hneeded : m.needed =
      (List.finRange R.arity).flatMap fun i =>
        [i].filter fun j : Fin R.arity => 0 < m.power j := by
    rw [← List.filter_flatMap, List.flatMap_singleton']
    rfl
  rw [eval_eq_foldlM hm, hneeded]
  exact error?_foldlM (fun i _ r => error?_multiplyAt r i) m.coeff

/-- The coefficient times the powers of values, one for each slot. -/
def valueAt (m : Monomial R) (x : Fin R.arity → R.Carrier) : R.Carrier :=
  m.coeff * ((List.finRange R.arity).map fun i => Coefficient.power (x i) (m.power i)).prod

theorem toRat_valueAt (h : R.domain ≠ .real) (x : Fin R.arity → R.Carrier) :
    R.domain.toRat (m.valueAt x) =
      MvPolynomial.eval (fun i => R.domain.toRat (x i)) m.denote := by
  have hpowers : ((List.finRange R.arity).map fun i =>
      Coefficient.power (x i) (m.power i)).map R.domain.toRat =
      (List.finRange R.arity).map fun i => R.domain.toRat (x i) ^ m.power i := by
    rw [List.map_map]
    exact List.map_congr_left fun i _ => Domain.toRat_power h (x i) (m.power i)
  rw [valueAt, Domain.toRat_mul h, Domain.toRat_prod h, hpowers, denote_eq_prod, map_mul, map_prod,
    eval_C, Fin.prod_univ_def]
  simp [power]

end Monomial

/-! ## Polynomials -/

namespace Poly
variable {p : Poly R} {env : Env R.Carrier}

/-- The slots whose values evaluation asks for: term by term, in each term slot by slot. -/
def needed (p : Poly R) : List (Fin R.arity) := p.nonzero.flatMap (·.needed)

theorem mem_needed {i : Fin R.arity} : i ∈ p.needed ↔ ∃ m ∈ p.nonzero, 0 < m.power i := by
  rw [needed, List.mem_flatMap]
  simp only [Monomial.mem_needed]

/-- Evaluation fails at the first slot it asks for that has no value. -/
theorem error?_eval (hp : p.WellFormed) :
    error? (p.eval env) = (p.needed.find? (env.Lacks ·)).map env.missing := by
  refine error?_foldlM (fun m hm total => ?_) 0
  rw [← Monomial.error?_eval (hp.prune.fits m hm)]
  cases m.eval env <;> rfl

/-- The sum of the values of the non-zero terms. -/
def valueAt (p : Poly R) (x : Fin R.arity → R.Carrier) : R.Carrier :=
  (p.nonzero.map (·.valueAt x)).sum

theorem toRat_valueAt (h : R.domain ≠ .real) (x : Fin R.arity → R.Carrier) :
    R.domain.toRat (p.valueAt x) =
      MvPolynomial.eval (fun i => R.domain.toRat (x i)) p.denote := by
  rw [valueAt, Domain.toRat_sum h, ← denote_nonzero h p, denote, map_list_sum, List.map_map,
    List.map_map]
  exact congrArg List.sum (List.map_congr_left fun m _ => Monomial.toRat_valueAt h x)

theorem eval_eq_valueAt (h : R.domain ≠ .real) (hp : p.WellFormed) {x : Fin R.arity → R.Carrier}
    (hx : ∀ i ∈ p.needed, env.value? i = some (x i)) : p.eval env = .ok (p.valueAt x) := by
  obtain ⟨s, hs, hvalue⟩ := eval_of_lookup h hp (x := x) fun m hm i hi =>
    Env.lookup_of_value (hx i (mem_needed.2 ⟨m, hm, Nat.pos_of_ne_zero hi⟩))
  rw [hs, (Domain.toRat_inj h).1 (hvalue.trans (toRat_valueAt h x).symm)]

/-- Values for the slots that evaluation asks for, when none is missing. -/
theorem exists_values (henv : ∀ i ∈ p.needed, ¬ env.Lacks i) :
    ∃ x : Fin R.arity → R.Carrier, ∀ i ∈ p.needed, env.value? i = some (x i) := by
  refine ⟨fun i => (env.value? i).getD 0, fun i hi => ?_⟩
  obtain ⟨x, hx⟩ := Option.ne_none_iff_exists'.1 (mt Env.lacks_iff.2 (henv i hi))
  have hvalue : (env.value? i).getD 0 = x := by rw [hx, Option.getD_some]
  exact hx.trans (congrArg some hvalue.symm)

theorem eval_of_lacks (hp : p.WellFormed) {before after : List (Fin R.arity)} {i : Fin R.arity}
    (hneeded : p.needed = before ++ i :: after) (hbefore : ∀ j ∈ before, ¬ env.Lacks j)
    (hi : env.Lacks i) : p.eval env = .error (env.missing i) := by
  have hfind : p.needed.find? (env.Lacks ·) = some i := by
    refine List.find?_eq_some_iff_append.2 ⟨decide_eq_true hi, before, after, hneeded, ?_⟩
    intro j hj
    rw [decide_eq_false (hbefore j hj)]
    rfl
  rw [← error?_eq_some_iff, error?_eval hp, hfind]
  rfl

theorem eval_error_iff (hp : p.WellFormed) :
    (∃ e, p.eval env = .error e) ↔ ∃ i ∈ p.needed, env.Lacks i := by
  simp only [← error?_eq_some_iff, ← Option.isSome_iff_exists]
  rw [error?_eval hp, Option.isSome_map, List.find?_isSome]
  simp only [decide_eq_true_iff]

/-- Over an exact domain evaluation fails exactly when a variable with a positive power in a
non-zero term has no value, and reports the first such variable in the order of the terms and, in a
term, of the slots. Otherwise the value is the sum of the values of the non-zero terms, and no value
that is not asked for has a part in it. `Poly.Reachable.wellFormed` provides the hypothesis on the
terms. -/
theorem eval_partial (h : R.domain ≠ .real) (hp : p.WellFormed) (env : Env R.Carrier) :
    ((∃ e, p.eval env = .error e) ↔
      ∃ m ∈ p.nonzero, ∃ i : Fin R.arity, 0 < m.power i ∧ env.Lacks i) ∧
    (∀ before i after, p.needed = before ++ i :: after → (∀ j ∈ before, ¬ env.Lacks j) →
      env.Lacks i → p.eval env = .error (env.missing i)) ∧
    ((∀ i ∈ p.needed, ¬ env.Lacks i) → ∃ x : Fin R.arity → R.Carrier,
      (∀ i ∈ p.needed, env.value? i = some (x i)) ∧ p.eval env = .ok (p.valueAt x)) ∧
    ∀ env' : Env R.Carrier,
      (∀ m ∈ p.nonzero, ∀ i : Fin R.arity, 0 < m.power i → env.value? i = env'.value? i) →
      (p.eval env).toOption = (p.eval env').toOption := by
  refine ⟨(eval_error_iff hp).trans ?_, fun _ _ _ => eval_of_lacks hp, fun henv => ?_,
    fun env' hagree => ?_⟩
  · constructor
    · intro hlacks
      obtain ⟨i, hi, hlacks⟩ := hlacks
      obtain ⟨m, hm, hpower⟩ := mem_needed.1 hi
      exact ⟨m, hm, i, hpower, hlacks⟩
    · intro hlacks
      obtain ⟨m, hm, i, hpower, hlacks⟩ := hlacks
      exact ⟨i, mem_needed.2 ⟨m, hm, hpower⟩, hlacks⟩
  · obtain ⟨x, hx⟩ := exists_values henv
    exact ⟨x, hx, eval_eq_valueAt h hp hx⟩
  · have hvalues : ∀ i ∈ p.needed, env.value? i = env'.value? i := fun i hi =>
      (mem_needed.1 hi).elim fun m hm => hagree m hm.1 i hm.2
    by_cases hlacks : ∃ i ∈ p.needed, env.Lacks i
    · -- a variable without a value is one for both
      have hlacks' : ∃ i ∈ p.needed, env'.Lacks i := by
        obtain ⟨i, hi, hlacks⟩ := hlacks
        exact ⟨i, hi, Env.lacks_iff.2 ((hvalues i hi).symm.trans (Env.lacks_iff.1 hlacks))⟩
      obtain ⟨e, he⟩ := (eval_error_iff hp).2 hlacks
      obtain ⟨e', he'⟩ := (eval_error_iff hp).2 hlacks'
      rw [he, he']
      rfl
    · obtain ⟨x, hx⟩ := exists_values fun i hi hi' => hlacks ⟨i, hi, hi'⟩
      rw [eval_eq_valueAt h hp hx,
        eval_eq_valueAt h hp fun i hi => (hvalues i hi).symm.trans (hx i hi)]

/-- In `0x^3 + 2y^2z + 5z` the variable `x` is not asked for. Without a value for `z` evaluation
fails after `y` was found; with values for `y` and `z` it gives the same by name and by slot. -/
theorem eval_partial_cancelled :
    let R : PolyRing := ⟨.integer, ['x', 'y', 'z'], by simp, by simp, by simp [alphabet]⟩
    let p : Poly R := ⟨[⟨(0 : Int), [3, 0, 0]⟩, ⟨(2 : Int), [0, 2, 1]⟩, ⟨(5 : Int), [0, 0, 1]⟩]⟩
    let named : Env R.Carrier := .byName [("z", (2 : Int)), ("y", (3 : Int))]
    R.domain ≠ .real ∧ p.WellFormed ∧
      p.eval (.byName [("y", (3 : Int))]) = .error (.unbound 'z') ∧
      p.eval (.bySlot [(7 : Int), (3 : Int)]) = .error .slotOutOfRange ∧
      p.eval named = .ok (46 : Int) ∧
      (p.eval named).toOption = (p.eval (.bySlot [(7 : Int), (3 : Int), (2 : Int)])).toOption := by
  intro R p named
  have hexact : R.domain ≠ .real := by decide
  have hp : p.WellFormed := ⟨by unfold Ordered; decide, by decide⟩
  let y : Fin R.arity := ⟨1, by decide⟩
  let z : Fin R.arity := ⟨2, by decide⟩
  have hneeded : p.needed = [y] ++ z :: [z] := rfl
  refine ⟨hexact, hp, ?_, ?_, ?_, ?_⟩
  · exact (eval_partial hexact hp _).2.1 [y] z [z] hneeded (by decide) (by decide)
  · exact (eval_partial hexact hp _).2.1 [y] z [z] hneeded (by decide) (by decide)
  · obtain ⟨x, hx, hvalue⟩ := (eval_partial hexact hp named).2.2.1 (by rw [hneeded]; decide)
    have hy : x y = (3 : Int) := (Option.some.inj (hx y (by rw [hneeded]; decide))).symm
    have hz : x z = (2 : Int) := (Option.some.inj (hx z (by rw [hneeded]; decide))).symm
    rw [hvalue]
    show Except.ok ((2 : Int) * (1 * (1 * x y * x y * (1 * x z * 1))) +
      ((5 : Int) * (1 * (1 * (1 * x z * 1))) + 0)) = .ok (46 : Int)
    rw [hy, hz]
    rfl
  · refine (eval_partial hexact hp named).2.2.2 _ ?_
    decide

end Poly
end Multipoly
