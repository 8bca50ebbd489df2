import Multipoly.Proofs.Respelling

/-!
# What the scanner takes

The tokens of a line cover its text up to the first line break. Between them stand blanks, and a
number is followed by nothing that would continue it. The only failure is a character that is not
recognised, and the error names the first one.

Results:
* `Token.stops_of_scan`: a number is taken as far as it goes;
* `Line.isFirst_of_fault`: the error of a scan is at the first character that is not recognised;
* `Line.covers_scanFrom`: the tokens cover the first line;
* `Line.tokens_cover`: which lines have tokens, what the tokens cover, and what the error names.
-/
namespace Multipoly

/-! ## Numbers -/

namespace Token
variable {symbols cs rest : List Char} {t : Token}

/-- What follows a number does not continue it: it starts neither with a digit nor, after a number
without a point, with a point and a digit. -/
def Stops (t : Token) (after : List Char) : Prop :=
  ∀ ds, t = .number ds →
    (∀ c, [c] <+: after → c.isDigit = false) ∧
    ('.' ∉ ds → ∀ c, ['.', c] <+: after → c.isDigit = false)

theorem Stops.mono {after after' : List Char} (h : t.Stops after) (hs : after' <+: after) :
    t.Stops after' := by
  intro ds hds
  obtain ⟨hdigit, hpoint⟩ := h ds hds
  exact ⟨fun c hc => hdigit c (hc.trans hs), fun hd c hc => hpoint hd c (hc.trans hs)⟩

theorem not_isDigit_of_prefix_dropWhile {c : Char}
    (h : [c] <+: cs.dropWhile Char.isDigit) : c.isDigit = false := by
  have hhead := List.head?_dropWhile_not Char.isDigit cs
  obtain ⟨after, hafter⟩ := h
  rw [← hafter] at hhead
  simpa using hhead

theorem stops_scanNumber (cs : List Char) :
    Stops (.number (scanNumber cs).1) (scanNumber cs).2 := by
  intro ds hds
  obtain rfl := number.inj hds
  have hwhole : ∀ c, [c] <+: cs.dropWhile Char.isDigit → c.isDigit = false := fun c hc =>
    not_isDigit_of_prefix_dropWhile hc
  unfold scanNumber
  generalize cs.dropWhile Char.isDigit = after at *
  dsimp only
  split
  · rename_i d es
    split
    · refine ⟨fun c hc => not_isDigit_of_prefix_dropWhile hc, fun hpoint => ?_⟩
      exact absurd (by simp) hpoint
    · rename_i hd
      refine ⟨hwhole, fun _ c hc => ?_⟩
      obtain rfl : c = d := by simpa using hc
      simpa using hd
  · rename_i hnone
    refine ⟨hwhole, fun _ c hc => ?_⟩
    obtain ⟨es, rfl⟩ := hc
    exact (hnone c es rfl).elim

theorem stops_of_scan (h : scan symbols cs = .ok (t, rest)) : t.Stops rest := by
  have hfound := found_of_scan h
  generalize cs.dropWhile isGap = tail at hfound
  cases hfound with
  | number hc cs => exact stops_scanNumber _
  | _ => exact nofun

/-- Only the token of a line break has a line break in its text. -/
theorem newline_notMem_of_scan (h : scan symbols cs = .ok (t, rest)) (ht : t ≠ .newline) :
    '\n' ∉ t.text := by
  have hfound := found_of_scan h
  generalize cs.dropWhile isGap = tail at hfound
  cases hfound with
  | finish => exact List.not_mem_nil
  | newline rest => exact absurd rfl ht
  | letter hv hne rest => simpa [text] using Ne.symm hne
  | number hc cs =>
    intro hmem
    rcases (isNumeral_scanNumber hc).isDigit_or_point _ hmem with hdigit | hpoint
    · cases hdigit
    · cases hpoint
  | mark m rest => cases m <;> decide

theorem endsLine_eq_false (h : t ≠ .finish) (h' : t ≠ .newline) : t.endsLine = false := by
  cases t with
  | finish => exact absurd rfl h
  | newline => exact absurd rfl h'
  | _ => rfl

theorem Spelled.text_ne_nil (h : t.Spelled symbols) : t.text ≠ [] := by
  cases t with
  | finish => exact h.elim
  | number ds => exact IsNumeral.ne_nil h
  | _ => exact List.cons_ne_nil _ _

end Token

/-! ## The first character that is not recognised -/

/-- The error names the first character of the text that is not recognised, by its offset. -/
def LexError.IsFirst (symbols text : List Char) (e : LexError) : Prop :=
  e.line = text ∧
  ∃ before after, text = before ++ e.char :: after ∧ e.position = before.length ∧
    (∀ c ∈ before, Token.Recognised symbols c) ∧ ¬ Token.Recognised symbols e.char

theorem LexError.IsFirst.position_le {symbols text : List Char} {e : LexError}
    (h : e.IsFirst symbols text) : e.position ≤ text.length := by
  obtain ⟨-, before, after, rfl, hposition, -⟩ := h
  rw [hposition, List.length_append]
  exact Nat.le_add_right _ _

namespace Line
variable {symbols text cs : List Char} {e : LexError}

/-- A scan of the end of a line stops at a character that is not recognised. It passes a line break
only by finding its token. -/
theorem unknown_of_fault (h : (scanFrom symbols text cs).2 = some e) :
    ∃ u before, e = .ofUnknown text u ∧ cs = before ++ u.char :: u.after ∧
      (∀ c ∈ before, Token.Recognised symbols c) ∧ ¬ Token.Recognised symbols u.char ∧
      ('\n' ∈ before → .newline ∈ tokensOf (scanFrom symbols text cs).1) := by
  induction hn : cs.length using Nat.strongRecOn generalizing cs with
  | ind n ih =>
    rw [scanFrom_eq] at h ⊢
    cases hscan : Token.scan symbols cs with
    | error u =>
      rw [hscan] at h
      obtain ⟨gs, hgs, hcs, hu⟩ := Token.unknown_of_scan hscan
      refine ⟨u, gs, (Option.some.inj h).symm, hcs, fun c hc => .inl (hgs c hc), hu, fun hmem => ?_⟩
      cases hgs _ hmem
    | ok found =>
      obtain ⟨t, rest⟩ := found
      rw [hscan] at h
      obtain ⟨gs, hgs, hcs, ht⟩ := Token.text_of_scan hscan
      dsimp only at h ⊢
      by_cases hfinish : t = .finish
      · rw [if_pos hfinish] at h
        cases h
      · have ht := ht.resolve_left fun h => hfinish h.1
        have hlt := Token.length_lt_of_scan hscan hfinish
        rw [if_neg hfinish] at h ⊢
        obtain ⟨u, before, he, hrest, hbefore, hu, hnewline⟩ := ih rest.length (hn ▸ hlt) h rfl
        refine ⟨u, gs ++ (t.text ++ before), he, ?_, ?_, hu, fun hmem => ?_⟩
        · rw [hcs, hrest, List.append_assoc, List.append_assoc]
        · exact List.forall_mem_append.2
            ⟨fun c hc => .inl (hgs c hc), List.forall_mem_append.2 ⟨ht.recognised, hbefore⟩⟩
        · rw [tokensOf_cons, List.mem_cons]
          by_cases hline : t = .newline
          · exact .inl hline.symm
          · rcases List.mem_append.1 hmem with hmem | hmem
            · cases hgs _ hmem
            · refine .inr (hnewline ((List.mem_append.1 hmem).resolve_left ?_))
              exact Token.newline_notMem_of_scan hscan hline

theorem position_ofUnknown {u : Token.Unknown} {before : List Char}
    (h : text = before ++ u.char :: u.after) :
    (LexError.ofUnknown text u).position = before.length := by
  have hlength := congrArg List.length h
  rw [List.length_append, List.length_cons] at hlength
  show text.length - (u.after.length + 1) = before.length
  omega

theorem isFirst_of_fault (h : (scan symbols text).fault = some e) : e.IsFirst symbols text := by
  obtain ⟨u, before, rfl, htext, hbefore, hu, -⟩ := unknown_of_fault h
  exact ⟨rfl, before, u.after, htext, position_ofUnknown htext, hbefore, hu⟩

/-! ## The first line -/

/-- A text up to its first line break, which belongs to it. -/
def firstLine (text : List Char) : List Char :=
  text.takeWhile (· ≠ '\n') ++ (text.dropWhile (· ≠ '\n')).take 1

theorem ne_newline {gs : List Char} (h : '\n' ∉ gs) : ∀ c ∈ gs, decide (c ≠ '\n') = true := by
  intro c hc
  refine decide_eq_true ?_
  rintro rfl
  exact h hc

theorem firstLine_append {gs : List Char} (h : '\n' ∉ gs) (cs : List Char) :
    firstLine (gs ++ cs) = gs ++ firstLine cs := by
  rw [firstLine, List.takeWhile_append_of_pos (ne_newline h),
    List.dropWhile_append_of_pos (ne_newline h), List.append_assoc]
  rfl

theorem firstLine_isPrefix (text : List Char) : firstLine text <+: text := by
  refine ⟨(text.dropWhile (· ≠ '\n')).drop 1, ?_⟩
  rw [firstLine, List.append_assoc, List.take_append_drop, List.takeWhile_append_dropWhile]

/-- The tokens of a line in order: their texts with blanks before each of them, no number stopped
short, and one end of a line, which comes last. -/
inductive Covers (symbols : List Char) : List Token → List Char → Prop
  | last {t : Token} {gs : List Char} (hgs : Blank gs) (ht : t.endsLine = true) :
      Covers symbols [t] (gs ++ t.text)
  | cons {t : Token} {ts : List Token} {gs cs : List Char} (hgs : Blank gs)
      (ht : t.Spelled symbols) (hline : t.endsLine = false) (hstop : t.Stops cs)
      (h : Covers symbols ts cs) : Covers symbols (t :: ts) (gs ++ (t.text ++ cs))

namespace Covers
variable {ts : List Token}

theorem recognised (h : Covers symbols ts cs) : ∀ c ∈ cs, Token.Recognised symbols c := by
  have hgaps : ∀ {gs}, Blank gs → ∀ c ∈ gs, Token.Recognised symbols c := fun hgs c hc =>
    .inl (hgs c hc)
  induction h with
  | @last t gs hgs ht =>
    refine List.forall_mem_append.2 ⟨hgaps hgs, ?_⟩
    cases t with
    | finish => exact nofun
    | newline => exact Token.Spelled.recognised (t := .newline) trivial
    | _ => cases ht
  | cons hgs ht _ _ _ ih =>
    exact List.forall_mem_append.2 ⟨hgaps hgs, List.forall_mem_append.2 ⟨ht.recognised, ih⟩⟩

theorem exists_last (h : Covers symbols ts cs) :
    ∃ init last, ts = init ++ [last] ∧ last.endsLine = true ∧ ∀ t ∈ init, t.endsLine = false := by
  induction h with
  | @last t gs hgs ht => exact ⟨[], t, rfl, ht, nofun⟩
  | @cons t ts gs cs hgs ht hline hstop h ih =>
    obtain ⟨init, last, rfl, hlast, hinit⟩ := ih
    exact ⟨t :: init, last, rfl, hlast, List.forall_mem_cons.2 ⟨hline, hinit⟩⟩

theorem spelled (h : Covers symbols ts cs) : ∀ t ∈ ts, t = .finish ∨ t.Spelled symbols := by
  induction h with
  | @last t gs hgs ht =>
    refine List.forall_mem_singleton.2 ?_
    cases t with
    | finish => exact .inl rfl
    | newline => exact .inr trivial
    | _ => cases ht
  | cons hgs ht _ _ _ ih => exact List.forall_mem_cons.2 ⟨.inr ht, ih⟩

end Covers

/-! ## Tokens -/

theorem exists_of_map_eq_ok {ε α β : Type} {r : Except ε α} {f : α → β} {b : β}
    (h : r.map f = .ok b) : ∃ a, r = .ok a ∧ f a = b := by
  cases r with
  | error e => cases h
  | ok a => exact ⟨a, rfl, Except.ok.inj h⟩

theorem tokens_cons {l : Line} {x : Lexeme} (hx : x.token ≠ .newline) :
    tokens { l with lexemes := x :: l.lexemes } = l.tokens.map (x.token :: ·) := by
  unfold tokens
  dsimp only
  rw [List.map_cons, List.takeWhile_cons_of_pos (by simpa using hx), List.length_cons,
    List.length_cons]
  split
  · rename_i hlt
    rw [if_pos (Nat.lt_of_succ_lt_succ hlt)]
    rfl
  · rename_i hlt
    rw [if_neg fun h => hlt (Nat.succ_lt_succ h)]
    cases l.fault <;> rfl

theorem tokens_eq_error {l : Line} (h : l.tokens = .error e) :
    l.fault = some e ∧ .newline ∉ tokensOf l.lexemes := by
  unfold tokens at h
  dsimp only at h
  split at h
  · cases h
  · rename_i hlt
    have hall : (tokensOf l.lexemes).takeWhile (· ≠ .newline) = tokensOf l.lexemes :=
      (List.takeWhile_prefix _).eq_of_length_le (Nat.le_of_not_lt hlt)
    split at h
    · rename_i e' he
      cases h
      refine ⟨he, fun hmem => ?_⟩
      rw [← hall] at hmem
      simpa using List.mem_takeWhile_imp hmem
    · cases h

theorem covers_scanFrom {ts : List Token}
    (h : tokens ⟨text, (scanFrom symbols text cs).1, (scanFrom symbols text cs).2⟩ = .ok ts) :
    Covers symbols ts (firstLine cs) := by
  induction hn : cs.length using Nat.strongRecOn generalizing cs ts with
  | ind n ih =>
    rw [scanFrom_eq] at h
    cases hscan : Token.scan symbols cs with
    | error u =>
      rw [hscan] at h
      cases h
    | ok found =>
      obtain ⟨t, rest⟩ := found
      rw [hscan] at h
      obtain ⟨gs, hgs, hcs, ht⟩ := Token.text_of_scan hscan
      have hgaps : '\n' ∉ gs := fun hmem => nomatch hgs _ hmem
      dsimp only at h
      rw [hcs, firstLine_append hgaps]
      by_cases hfinish : t = .finish
      · rw [if_pos hfinish] at h
        subst hfinish
        obtain ⟨-, rfl⟩ := ht.resolve_right id
        cases h
        exact .last hgs rfl
      · have ht := ht.resolve_left fun h => hfinish h.1
        have hlt := Token.length_lt_of_scan hscan hfinish
        rw [if_neg hfinish] at h
        by_cases hline : t = .newline
        · subst hline
          cases h
          exact .last hgs rfl
        · rw [tokens_cons (l := ⟨text, _, _⟩) hline] at h
          obtain ⟨us, hus, rfl⟩ := exists_of_map_eq_ok h
          have hrest := ih rest.length (hn ▸ hlt) hus rfl
          have hstop := (Token.stops_of_scan hscan).mono (firstLine_isPrefix rest)
          rw [firstLine_append (Token.newline_notMem_of_scan hscan hline)]
          exact .cons hgs ht (Token.endsLine_eq_false hfinish hline) hstop hrest

/-- The tokens of a line fail at a character before the first line break that is not recognised, if
there is one, and the error names the first such character. Otherwise they cover the text up to its
first line break, end with the only end of a line, and their numbers are numerals. -/
theorem tokens_cover (symbols text : List Char) :
    ((∃ e, (scan symbols text).tokens = .error e) ↔
      ∃ c ∈ text.takeWhile (· ≠ '\n'), ¬ Token.Recognised symbols c) ∧
    match (scan symbols text).tokens with
    | .error e => e.IsFirst symbols text ∧ '\n' ∉ text.take e.position
    | .ok ts =>
      Covers symbols ts (firstLine text) ∧
      (∃ init last, ts = init ++ [last] ∧ last.endsLine = true ∧
        ∀ t ∈ init, t.endsLine = false) ∧
      (∀ t ∈ ts, t.text = [] ↔ t = .finish) ∧
      ∀ ds, .number ds ∈ ts → IsNumeral ds := by
  cases htokens : (scan symbols text).tokens with
  | error e =>
    obtain ⟨hfault, hnewline⟩ := tokens_eq_error htokens
    obtain ⟨u, before, rfl, htext, hbefore, hu, hline⟩ := unknown_of_fault hfault
    have hbreak : '\n' ∉ before := fun hmem => hnewline (hline hmem)
    have hchar : u.char ≠ '\n' := fun heq => hu (.inr (.inl heq))
    have hmem : u.char ∈ text.takeWhile (· ≠ '\n') := by
      rw [htext, List.takeWhile_append_of_pos (ne_newline hbreak),
        List.takeWhile_cons_of_pos (by simpa using hchar)]
      exact List.mem_append_right _ List.mem_cons_self
    refine ⟨⟨fun _ => ⟨u.char, hmem, hu⟩, fun _ => ⟨_, rfl⟩⟩, isFirst_of_fault hfault, ?_⟩
    rw [position_ofUnknown htext, htext, List.take_left]
    exact hbreak
  | ok ts =>
    have hcovers := covers_scanFrom htokens
    refine ⟨⟨nofun, ?_⟩, hcovers, hcovers.exists_last, ?_, ?_⟩
    · rintro ⟨c, hc, hnot⟩
      exact absurd (hcovers.recognised c (List.mem_append_left _ hc)) hnot
    · intro t ht
      rcases hcovers.spelled t ht with rfl | hspelled
      · exact ⟨fun _ => rfl, fun _ => rfl⟩
      · refine ⟨fun hnil => absurd hnil hspelled.text_ne_nil, ?_⟩
        rintro rfl
        rfl
    · intro ds hds
      exact (hcovers.spelled _ hds).resolve_left nofun

/-- Where `1` is a variable it starts no number, but it may stand inside one; the second point
belongs to no number; and what stands after the line break is not looked at. -/
theorem tokens_cover_overlapping :
    let symbols := ['x', '1']
    let text := ['1', '2', '1', '.', '5', '.', '3', ' ', 'x', ' ', '\n', '%']
    let ts : List Token :=
      [.letter '1', .number ['2', '1', '.', '5'], .mark .period, .number ['3'], .letter 'x',
        .newline]
    (scan symbols text).tokens = .ok ts ∧
      Covers symbols ts ['1', '2', '1', '.', '5', '.', '3', ' ', 'x', ' ', '\n'] ∧
      ¬ ∃ c ∈ text.takeWhile (· ≠ '\n'), ¬ Token.Recognised symbols c := by
  intro symbols text ts
  have htokens : (scan symbols text).tokens = .ok ts := by
    cbv
  obtain ⟨herror, hcovers⟩ := tokens_cover symbols text
  rw [htokens] at herror hcovers
  refine ⟨htokens, hcovers.1, fun hc => ?_⟩
  obtain ⟨e, he⟩ := herror.2 hc
  cases he

end Line
end Multipoly
