import Multipoly.Parser
import Multipoly.Proofs.Scanning

/-!
# Outcomes of phrases

When a phrase is read: which value it yields and which tokens it leaves. `Outcome.Done` forgets the
bound on the tokens left, and each combinator has one lemma that says when it is done.
-/
namespace Multipoly

namespace Outcome
variable {α β : Type} {m n : Nat} {ts rest : List Lexeme}

/-- The phrase was read as `a` and leaves `rest`. -/
def Done (o : Outcome α n) (a : α) (rest : List Lexeme) : Prop := ∃ lt, o = .done a rest lt

@[simp] theorem done_done {a b : α} {lt : ts.length < n} :
    (done a ts lt).Done b rest ↔ a = b ∧ ts = rest := by
  constructor
  · intro hdone
    obtain ⟨_, h⟩ := hdone
    simpa using h
  · intro heq
    obtain ⟨rfl, rfl⟩ := heq
    exact ⟨lt, rfl⟩

@[simp] theorem done_failed {a : α} {e : ParseError} :
    ¬ (failed e ts : Outcome α n).Done a rest := by
  intro hdone
  obtain ⟨_, h⟩ := hdone
  cases h

theorem Done.length_lt {o : Outcome α n} {a : α} (h : o.Done a rest) : rest.length < n := h.1

@[simp] theorem done_andThen {o : Outcome α m} {b : β}
    {f : α → (rest : List Lexeme) → rest.length < m → Outcome β n} :
    (o.andThen f).Done b rest ↔ ∃ a us lt, o.Done a us ∧ (f a us lt).Done b rest := by
  cases o with
  | done a us lt =>
    constructor
    · intro h
      exact ⟨a, us, lt, ⟨lt, rfl⟩, h⟩
    · intro hboth
      obtain ⟨a', us', lt', ⟨_, heq⟩, h⟩ := hboth
      cases heq
      exact h
  | failed e us =>
    constructor
    · intro h
      exact absurd h done_failed
    · intro hboth
      obtain ⟨_, _, _, h, _⟩ := hboth
      exact absurd h done_failed

@[simp] theorem done_map {o : Outcome α n} {f : α → β} {b : β} :
    (o.map f).Done b rest ↔ ∃ a, o.Done a rest ∧ f a = b := by
  cases o with
  | done a us lt =>
    simp only [map, done_done]
    constructor
    · intro heq
      obtain ⟨rfl, rfl⟩ := heq
      exact ⟨a, ⟨rfl, rfl⟩, rfl⟩
    · intro hboth
      obtain ⟨_, ⟨rfl, rfl⟩, rfl⟩ := hboth
      exact ⟨rfl, rfl⟩
  | failed e us => simp [map]

@[simp] theorem done_widen {o : Outcome α m} {a : α} {h : m ≤ n} :
    (o.widen h).Done a rest ↔ o.Done a rest := by
  cases o with
  | done b us lt => simp [widen]
  | failed e us => simp [widen]

theorem toExcept_eq_ok_iff {o : Outcome α n} {a : α} :
    o.toExcept = .ok a ↔ ∃ rest, o.Done a rest := by
  cases o with
  | done b us lt => simp [toExcept]
  | failed e us => simp [toExcept]

end Outcome

namespace Line
variable {line : Line} {l : Lexeme} {ts rest : List Lexeme}

@[simp] theorem done_reject {α : Type} {n : Nat} {c : Cause} {a : α} :
    ¬ (line.reject c ts : Outcome α n).Done a rest := Outcome.done_failed

/-- A token is passed when no fault stands right after it. -/
theorem done_advance {α : Type} {n : Nat} {a : α}
    {f : Unit → (us : List Lexeme) → us.length < ts.length + 1 → Outcome α n} :
    ((line.advance l ts).andThen f).Done a rest ↔
      line.faultBefore? ts = none ∧ (f () ts (Nat.lt_succ_self _)).Done a rest := by
  unfold advance
  split
  · rename_i e he
    simp [he, Outcome.andThen]
  · rename_i hnone
    simp [hnone, Outcome.andThen]

theorem faultBefore_eq_none : line.faultBefore? ts = none ↔ ts = [] → line.fault = none := by
  cases ts with
  | nil => simp [faultBefore?]
  | cons l ts => simp [faultBefore?]

theorem current_eq (ts : List Lexeme) : current ts = (tokensOf ts).headD .finish := by
  cases ts <;> rfl

end Line
end Multipoly
