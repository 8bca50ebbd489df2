import Multipoly.Proofs.Rendering

/-!
# Respelling a line

Which characters the scanner recognises, and what it makes of tokens that are written apart: blanks
between tokens neither split a token nor join two of them, so the tokens come back.

Results:
* `Line.fault_eq_none_iff`: a line is scanned to its end when all its characters are recognised, and
  only then;
* `Line.sequence_of_respells`: tokens with blanks between them are scanned as these tokens.
-/
namespace Multipoly

namespace Token
variable {symbols cs : List Char} {t : Token}

/-! ## Recognised characters -/

/-- Characters that stand between tokens or start one. -/
def Recognised (symbols : List Char) (c : Char) : Prop :=
  isGap c = true ∨ c = '\n' ∨ c ∈ symbols ∨ c.isDigit = true ∨ (Mark.ofChar? c).isSome = true

instance : DecidablePred (Recognised symbols) := fun c =>
  inferInstanceAs (Decidable (isGap c = true ∨ c = '\n' ∨ c ∈ symbols ∨ c.isDigit = true ∨
    (Mark.ofChar? c).isSome = true))

theorem Spelled.recognised (h : t.Spelled symbols) : ∀ c ∈ t.text, Recognised symbols c := by
  cases t with
  | finish => exact nofun
  | newline => exact List.forall_mem_singleton.2 (.inr (.inl rfl))
  | number ds =>
    intro c hc
    rcases IsNumeral.isDigit_or_point h c hc with hc | rfl
    · exact .inr (.inr (.inr (.inl hc)))
    · exact .inr (.inr (.inr (.inr rfl)))
  | letter v => exact List.forall_mem_singleton.2 (.inr (.inr (.inl h)))
  | mark m =>
    refine List.forall_mem_singleton.2 (.inr (.inr (.inr (.inr ?_))))
    rw [Mark.ofChar?_char]
    rfl

/-- A scan fails at the first character that is no blank, which is not recognised. -/
theorem unknown_of_scan {u : Unknown} (h : scan symbols cs = .error u) :
    ∃ gs, (∀ c ∈ gs, isGap c = true) ∧ cs = gs ++ u.char :: u.after ∧
      ¬ Recognised symbols u.char := by
  refine ⟨cs.takeWhile isGap, fun c hc => List.mem_takeWhile_imp hc, ?_⟩
  have hcs := List.takeWhile_append_dropWhile (p := isGap) (l := cs)
  have hhead := List.head?_dropWhile_not isGap cs
  unfold scan at h
  generalize cs.takeWhile isGap = gs at hcs
  generalize cs.dropWhile isGap = tail at h hcs hhead
  subst hcs
  cases tail with
  | nil => cases h
  | cons c tail =>
    dsimp only at h
    split at h
    · cases h
    · rename_i hnewline
      split at h
      · cases h
      · rename_i hletter
        split at h
        · cases h
        · rename_i hdigit
          split at h
          · cases h
          · rename_i hmark
            cases h
            refine ⟨rfl, ?_⟩
            rintro (hgap | hc | hc | hc | hc)
            · simp [hgap] at hhead
            · exact hnewline hc
            · exact hletter hc
            · exact hdigit hc
            · rw [hmark] at hc
              cases hc

end Token

namespace Line
variable {symbols text : List Char}

theorem fault_scanFrom_eq_none_iff (symbols text cs : List Char) :
    (scanFrom symbols text cs).2 = none ↔ ∀ c ∈ cs, Token.Recognised symbols c := by
  induction hn : cs.length using Nat.strongRecOn generalizing cs with
  | ind n ih =>
    rw [scanFrom_eq]
    cases hscan : Token.scan symbols cs with
    | error u =>
      obtain ⟨gs, -, rfl, hu⟩ := Token.unknown_of_scan hscan
      exact ⟨nofun, fun hcs => absurd (hcs _ (by simp)) hu⟩
    | ok found =>
      obtain ⟨t, rest⟩ := found
      obtain ⟨gs, hgs, rfl, ht⟩ := Token.text_of_scan hscan
      have hgaps : ∀ c ∈ gs, Token.Recognised symbols c := fun c hc => .inl (hgs c hc)
      dsimp only
      rw [List.forall_mem_append]
      by_cases hfinish : t = .finish
      · rw [if_pos hfinish]
        rcases ht with ⟨rfl, rfl⟩ | ht
        · exact ⟨fun _ => ⟨hgaps, nofun⟩, fun _ => rfl⟩
        · rw [hfinish] at ht
          exact ht.elim
      · have ht := ht.resolve_left fun h => hfinish h.1
        have hlt := Token.length_lt_of_scan hscan hfinish
        rw [if_neg hfinish, List.forall_mem_append]
        dsimp only
        rw [ih rest.length (hn ▸ hlt) rest rfl]
        exact ⟨fun h => ⟨hgaps, ht.recognised, h⟩, fun h => h.2.2⟩

/-- A line is scanned to its end exactly when all its characters are recognised. -/
theorem fault_eq_none_iff :
    (scan symbols text).fault = none ↔ ∀ c ∈ text, Token.Recognised symbols c :=
  fault_scanFrom_eq_none_iff symbols text text

/-! ## Tokens written apart -/

/-- A text of blanks. -/
def Blank (gs : List Char) : Prop := ∀ c ∈ gs, Token.isGap c = true

instance : DecidablePred Blank := List.decidableBAll fun c => Token.isGap c = true

/-- The characters of the tokens, each followed by blanks, of which there are some before the next
token. -/
inductive Apart : List Token → List Char → Prop
  | nil : Apart [] []
  | cons {t : Token} {ts : List Token} {gs cs : List Char} (hgs : Blank gs)
      (hne : ts ≠ [] → gs ≠ []) (h : Apart ts cs) : Apart (t :: ts) (t.text ++ (gs ++ cs))

/-- A text spells tokens when it holds their characters with blanks between them, and perhaps
blanks at either end. -/
def Respells (ts : List Token) (text : List Char) : Prop :=
  ∃ gs cs, Blank gs ∧ text = gs ++ cs ∧ Apart ts cs

/-- A blank ends a number. -/
theorem endsNumber_of_blank {gs cs : List Char} (hgs : Blank gs) (hne : gs ≠ []) :
    EndsNumber (gs ++ cs) := by
  obtain ⟨c, gs, rfl⟩ := List.exists_cons_of_ne_nil hne
  have hc := (List.forall_mem_cons.1 hgs).1
  simp only [Token.isGap, Bool.or_eq_true, beq_iff_eq] at hc
  rcases hc with (rfl | rfl) | rfl <;> exact endsNumber_cons (by decide) (by decide)

theorem Scans.spelled {t : Token} (ht : t.Spelled alphabet) {cs : List Char} (hcs : EndsNumber cs) :
    Scans (t.text ++ cs) [t] cs := by
  cases t with
  | finish => exact ht.elim
  | newline => exact .token rfl nofun
  | number ds => exact .number ht hcs
  | letter v => exact .letter ht cs
  | mark m => exact .mark m cs

theorem Apart.scans {ts : List Token} {cs : List Char} (h : Apart ts cs)
    (hts : ∀ t ∈ ts, t.Spelled alphabet) : Scans cs ts [] := by
  induction h with
  | nil => exact .refl []
  | @cons t ts gs cs hgs hne h ih =>
    obtain ⟨ht, hts⟩ := List.forall_mem_cons.1 hts
    have hends : EndsNumber (gs ++ cs) := by
      by_cases hnil : gs = []
      · have hlast : ts = [] := by_contra fun hts => hne hts hnil
        subst hlast
        cases h
        rw [hnil]
        exact endsNumber_nil
      · exact endsNumber_of_blank hgs hnil
    exact (Scans.spelled ht hends).trans ((Scans.gaps hgs cs).trans (ih hts))

/-- Tokens with blanks between them are scanned as these tokens, up to the end of the text. -/
theorem sequence_of_respells {ts : List Token} (h : Respells ts text)
    (hts : ∀ t ∈ ts, t.Spelled alphabet) :
    (scan alphabet text).fault = none ∧ tokensOf (scan alphabet text).lexemes = ts := by
  obtain ⟨gs, cs, hgs, rfl, hcs⟩ := h
  obtain ⟨htokens, hfault⟩ := (Scans.gaps hgs cs).trans (hcs.scans hts) (gs ++ cs)
  rw [scanFrom_nil] at htokens hfault
  exact ⟨hfault, htokens.trans (List.append_nil ts)⟩

theorem exists_apart (ts : List Token) : ∃ cs, Apart ts cs := by
  induction ts with
  | nil => exact ⟨[], .nil⟩
  | cons t ts ih =>
    obtain ⟨cs, hcs⟩ := ih
    exact ⟨_, .cons (List.forall_mem_singleton.2 rfl : Blank [' ']) (fun _ => by simp) hcs⟩

/-- Every list of tokens that can be spelled is what some line is scanned as. -/
theorem exists_scan {ts : List Token} (hts : ∀ t ∈ ts, t.Spelled alphabet) :
    ∃ text, (scan alphabet text).fault = none ∧ tokensOf (scan alphabet text).lexemes = ts := by
  obtain ⟨cs, hcs⟩ := exists_apart ts
  exact ⟨cs, sequence_of_respells ⟨[], cs, nofun, rfl, hcs⟩ hts⟩

end Line
end Multipoly
