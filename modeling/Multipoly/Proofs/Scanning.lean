import Multipoly.Token
import Multipoly.Proofs.Literal

/-!
# Scanned tokens

What the tokens of a scanned line look like, and the part of a line that a parser reads.

Results:
* `Token.found_of_scan`: the token that a scan finds after blanks, kind by kind;
* `Token.text_of_scan`: a scan takes blanks and the characters of the token it finds;
* `Line.spelled_lexemes`: the tokens of a line are tokens that can be spelled;
* `Line.scanned_lexemes`: the text of a number token is digits, or digits, a point and digits, and
  no token is the end of the text;
* `Line.statement`: the tokens of the first line that is not empty, unless a character before its
  end starts no token;
* `Line.sequence`: all tokens, the end of the text among them.
-/
namespace Multipoly

/-- What holds of the first element. -/
theorem forall_head_cons {α : Type} {P : α → Prop} {a : α} {as : List α} (h : P a) :
    ∀ b ∈ (a :: as).head?, P b := by
  simpa using h

namespace Token

theorem takeWhile_isDigit {c : Char} {cs : List Char} (hc : c.isDigit = true) :
    AllDigits ((c :: cs).takeWhile Char.isDigit) := by
  refine ⟨?_, fun d hd => List.mem_takeWhile_imp hd⟩
  rw [List.takeWhile_cons_of_pos hc]
  exact List.cons_ne_nil _ _

theorem isNumeral_scanNumber {c : Char} {cs : List Char} (hc : c.isDigit = true) :
    IsNumeral (scanNumber (c :: cs)).1 := by
  have hwhole : AllDigits ((c :: cs).takeWhile Char.isDigit) := takeWhile_isDigit hc
  unfold scanNumber
  dsimp only
  split
  · split
    · rename_i hd
      exact .point hwhole (takeWhile_isDigit hd)
    · exact .whole hwhole
  · exact .whole hwhole

theorem ofChar?_eq_some {c : Char} {m : Mark} (h : Mark.ofChar? c = some m) : m.char = c := by
  unfold Mark.ofChar? at h
  split at h <;> cases h <;> rfl

/-- The token at the head of a text that starts with no blank, and the text after it. -/
inductive Found (symbols : List Char) : List Char → Token → List Char → Prop
  | finish : Found symbols [] .finish []
  | newline (rest : List Char) : Found symbols ('\n' :: rest) .newline rest
  | letter {v : Char} (hv : v ∈ symbols) (hne : v ≠ '\n') (rest : List Char) :
      Found symbols (v :: rest) (.letter v) rest
  | number {c : Char} (hc : c.isDigit = true) (cs : List Char) :
      Found symbols (c :: cs) (.number (scanNumber (c :: cs)).1) (scanNumber (c :: cs)).2
  | mark (m : Mark) (rest : List Char) : Found symbols (m.char :: rest) (.mark m) rest

theorem found_of_scan {symbols cs rest : List Char} {t : Token}
    (h : scan symbols cs = .ok (t, rest)) : Found symbols (cs.dropWhile isGap) t rest := by
  unfold scan at h
  generalize cs.dropWhile isGap = tail at h
  cases tail with
  | nil => cases h; exact .finish
  | cons c tail =>
    dsimp only at h
    split at h
    · rename_i hc
      subst hc
      cases h
      exact .newline rest
    · rename_i hc
      split at h
      · rename_i hv
        cases h
        exact .letter hv hc rest
      · split at h
        · rename_i hd
          cases h
          exact .number hd tail
        · split at h
          · rename_i m hm
            cases h
            obtain rfl := ofChar?_eq_some hm
            exact .mark m rest
          · cases h

/-- Tokens that a scan with these variables finds before the end of the text. -/
def Spelled (symbols : List Char) : Token → Prop
  | finish => False
  | newline => True
  | number ds => IsNumeral ds
  | letter v => v ∈ symbols
  | mark _ => True

/-- What a scan takes: blanks, and the characters of the token it finds. -/
theorem text_of_scan {symbols cs rest : List Char} {t : Token}
    (h : scan symbols cs = .ok (t, rest)) :
    ∃ gs, (∀ c ∈ gs, isGap c = true) ∧ cs = gs ++ (t.text ++ rest) ∧
      (t = .finish ∧ rest = [] ∨ t.Spelled symbols) := by
  refine ⟨cs.takeWhile isGap, fun c hc => List.mem_takeWhile_imp hc, ?_⟩
  have hcs := List.takeWhile_append_dropWhile (p := isGap) (l := cs)
  have hfound := found_of_scan h
  generalize cs.takeWhile isGap = gs at hcs
  generalize cs.dropWhile isGap = tail at hfound hcs
  subst hcs
  cases hfound with
  | finish => exact ⟨rfl, .inl ⟨rfl, rfl⟩⟩
  | newline rest => exact ⟨rfl, .inr trivial⟩
  | letter hv _ rest => exact ⟨rfl, .inr hv⟩
  | number hc cs => exact ⟨by rw [text, scanNumber_append], .inr (isNumeral_scanNumber hc)⟩
  | mark m rest => exact ⟨rfl, .inr trivial⟩

theorem isNumeral_of_scan {symbols cs ds rest : List Char}
    (h : scan symbols cs = .ok (.number ds, rest)) : IsNumeral ds := by
  obtain ⟨-, -, -, ht⟩ := text_of_scan h
  exact ht.resolve_left nofun

end Token

namespace Line

/-- The tokens without their cursors. -/
def tokensOf (ts : List Lexeme) : List Token := ts.map (·.token)

@[simp] theorem tokensOf_nil : tokensOf [] = [] := rfl

@[simp] theorem tokensOf_cons (l : Lexeme) (ts : List Lexeme) :
    tokensOf (l :: ts) = l.token :: tokensOf ts := rfl

theorem tokensOf_append (ts us : List Lexeme) : tokensOf (ts ++ us) = tokensOf ts ++ tokensOf us :=
  List.map_append

theorem length_tokensOf (ts : List Lexeme) : (tokensOf ts).length = ts.length := List.length_map _

theorem tokensOf_eq_nil {ts : List Lexeme} : tokensOf ts = [] ↔ ts = [] := List.map_eq_nil_iff

theorem tokensOf_eq_cons {ts : List Lexeme} {t : Token} {us : List Token}
    (h : tokensOf ts = t :: us) : ∃ stop rest, ts = ⟨t, stop⟩ :: rest ∧ tokensOf rest = us := by
  obtain ⟨l, rest, rfl, rfl, rfl⟩ := List.map_eq_cons_iff.1 h
  exact ⟨l.stop, rest, rfl, rfl⟩

/-- The tokens of a statement: they were told from characters, so a number token holds a numeral,
and none of them is the end of the text. -/
def Scanned (ts : List Token) : Prop :=
  (∀ ds, .number ds ∈ ts → IsNumeral ds) ∧ .finish ∉ ts

theorem Scanned.mono {ts us : List Token} (h : Scanned ts) (hs : us <:+ ts) : Scanned us :=
  ⟨fun ds hds => h.1 ds (hs.subset hds), fun hf => h.2 (hs.subset hf)⟩

theorem Scanned.tail {t : Token} {ts : List Token} (h : Scanned (t :: ts)) : Scanned ts :=
  h.mono (List.suffix_cons t ts)

theorem scanFrom_eq (symbols text cs : List Char) :
    scanFrom symbols text cs =
      match Token.scan symbols cs with
      | .error u => ([], some (LexError.ofUnknown text u))
      | .ok (t, rest) =>
        if t = .finish then ([], none)
        else (⟨t, text.length - rest.length⟩ :: (scanFrom symbols text rest).1,
          (scanFrom symbols text rest).2) := by
  rw [scanFrom]
  split
  · rename_i u hu
    rw [hu]
  · rename_i t rest ht
    rw [ht]
    dsimp only
    split <;> rfl

theorem spelled_scanFrom (symbols text cs : List Char) :
    ∀ t ∈ tokensOf (scanFrom symbols text cs).1, t.Spelled symbols := by
  induction hn : cs.length using Nat.strongRecOn generalizing cs with
  | ind n ih =>
    rw [scanFrom_eq]
    cases hscan : Token.scan symbols cs with
    | error u => exact nofun
    | ok found =>
      obtain ⟨t, rest⟩ := found
      obtain ⟨-, -, -, ht⟩ := Token.text_of_scan hscan
      dsimp only
      by_cases hfinish : t = .finish
      · rw [if_pos hfinish]
        exact nofun
      · have hlt := Token.length_lt_of_scan hscan hfinish
        rw [if_neg hfinish]
        exact List.forall_mem_cons.2
          ⟨ht.resolve_left fun h => hfinish h.1, ih rest.length (hn ▸ hlt) rest rfl⟩

theorem spelled_lexemes (symbols text : List Char) :
    ∀ t ∈ tokensOf (scan symbols text).lexemes, t.Spelled symbols :=
  spelled_scanFrom symbols text text

theorem scanned_lexemes (symbols text : List Char) :
    Scanned (tokensOf (scan symbols text).lexemes) :=
  ⟨fun _ hds => spelled_lexemes symbols text _ hds, fun hf => spelled_lexemes symbols text _ hf⟩

/-- The tokens from the first one that is no line break up to the end of its line, unless a
character before that end starts no token. What stands after a line break is not looked at. -/
def statement (l : Line) : Except LexError (List Token) :=
  let all := (tokensOf l.lexemes).dropWhile (· = .newline)
  let body := all.takeWhile (· ≠ .newline)
  if body.length < all.length then .ok body
  else
    match l.fault with
    | some e => .error e
    | none => .ok body

/-- All tokens of a line, with the end of the text unless a character before it starts no token. -/
def sequence (l : Line) : List Token :=
  tokensOf l.lexemes ++ if l.fault.isNone then [.finish] else []

theorem sequence_of_fault {l : Line} (h : l.fault = none) :
    l.sequence = tokensOf l.lexemes ++ [.finish] := by
  rw [sequence, h]
  rfl

end Line
end Multipoly
