import Multipoly.Text

/-!
# Tokens

The tokens of a line: how the first one is told from the characters, and all of them at once, up to
the first character that starts none.

* `Token.length_lt_of_scan`: a token other than the end of the line takes characters away.
-/
namespace Multipoly

/-- Operators and punctuation. -/
inductive Mark where
  | plus
  | minus
  | star
  | slash
  | caret
  | opening
  | closing
  | equal
  | period
  deriving DecidableEq, Repr

/-- The character of a mark. -/
def Mark.char : Mark → Char
  | .plus => '+'
  | .minus => '-'
  | .star => '*'
  | .slash => '/'
  | .caret => '^'
  | .opening => '('
  | .closing => ')'
  | .equal => '='
  | .period => '.'

/-- The mark that a character is. -/
def Mark.ofChar? : Char → Option Mark
  | '+' => some .plus
  | '-' => some .minus
  | '*' => some .star
  | '/' => some .slash
  | '^' => some .caret
  | '(' => some .opening
  | ')' => some .closing
  | '=' => some .equal
  | '.' => some .period
  | _ => none

theorem Mark.ofChar?_char (m : Mark) : ofChar? m.char = some m := by cases m <;> rfl

inductive Token where
  /-- The end of the text. -/
  | finish
  | newline
  /-- Digits, or digits, a point and digits. -/
  | number (digits : List Char)
  /-- A variable. -/
  | letter (name : Char)
  | mark (m : Mark)
  deriving DecidableEq, Repr

namespace Token

/-- The characters of a token. -/
def text : Token → List Char
  | finish => []
  | newline => ['\n']
  | number digits => digits
  | letter name => [name]
  | mark m => [m.char]

/-- How messages name a token. -/
def describe : Token → String
  | finish => "END"
  | newline => "NEWLINE"
  | number digits => s!"NUMBER({String.ofList digits})"
  | letter name => s!"VARIABLE({name})"
  | mark m => String.ofList [m.char]

/-- Whether a monomial can start with the token. -/
def startsMonomial : Token → Bool
  | number _ | letter _ => true
  | _ => false

/-- Whether the token ends a line. -/
def endsLine : Token → Bool
  | finish | newline => true
  | _ => false

/-! ## Scanning -/

/-- Characters that stand between tokens. -/
def isGap (c : Char) : Bool := c == ' ' || c == '\t' || c == '\r'

/-- The number at the head of a text that starts with a digit, and the text after it. A point
belongs to the number when a digit follows. -/
def scanNumber (cs : List Char) : List Char × List Char :=
  let whole := cs.takeWhile Char.isDigit
  let rest := cs.dropWhile Char.isDigit
  match rest with
  | '.' :: d :: ds =>
    if d.isDigit then
      (whole ++ '.' :: (d :: ds).takeWhile Char.isDigit, (d :: ds).dropWhile Char.isDigit)
    else (whole, rest)
  | _ => (whole, rest)

/-- A character that starts no token, with the text after it. -/
structure Unknown where
  char : Char
  after : List Char

/-- The first token of a text whose variables are `symbols`, and the text after it. -/
def scan (symbols cs : List Char) : Except Unknown (Token × List Char) :=
  match cs.dropWhile isGap with
  | [] => .ok (finish, [])
  | c :: rest =>
    if c = '\n' then .ok (newline, rest)
    else if c ∈ symbols then .ok (letter c, rest)
    else if c.isDigit then
      let (digits, rest) := scanNumber (c :: rest)
      .ok (number digits, rest)
    else
      match Mark.ofChar? c with
      | some m => .ok (mark m, rest)
      | none => .error ⟨c, rest⟩

/-- Nothing of a number is lost. -/
theorem scanNumber_append (cs : List Char) : (scanNumber cs).1 ++ (scanNumber cs).2 = cs := by
  unfold scanNumber
  have h := List.takeWhile_append_dropWhile (p := Char.isDigit) (l := cs)
  generalize cs.takeWhile Char.isDigit = whole at *
  generalize cs.dropWhile Char.isDigit = rest at *
  dsimp only
  split
  · rename_i d ds
    split
    · rw [List.append_assoc, List.cons_append, List.takeWhile_append_dropWhile, h]
    · exact h
  · exact h

theorem scanNumber_ne_nil {c : Char} {cs : List Char} (h : c.isDigit = true) :
    (scanNumber (c :: cs)).1 ≠ [] := by
  unfold scanNumber
  rw [List.takeWhile_cons_of_pos h]
  dsimp only
  split
  · split <;> simp
  · simp

theorem length_lt_of_scan {symbols cs rest : List Char} {t : Token}
    (h : scan symbols cs = .ok (t, rest)) (ht : t ≠ finish) : rest.length < cs.length := by
  have hle := (List.dropWhile_sublist (p := isGap) (l := cs)).length_le
  unfold scan at h
  generalize cs.dropWhile isGap = ds at h hle
  cases ds with
  | nil => cases h; exact absurd rfl ht
  | cons c cs' =>
    simp only [List.length_cons] at hle
    dsimp only at h
    split at h
    · cases h; omega
    · split at h
      · cases h; omega
      · split at h
        · rename_i hd
          have hl := congrArg List.length (scanNumber_append (c :: cs'))
          have hn := List.length_pos_iff.2 (@scanNumber_ne_nil c cs' hd)
          cases h
          simp only [List.length_append, List.length_cons] at hl
          omega
        · split at h
          · cases h; omega
          · cases h

end Token

/-! ## Lexical errors -/

/-- A character of a line that starts no token. -/
structure LexError where
  line : List Char
  /-- The offset of the character in the line. -/
  position : Nat
  char : Char

/-- The error at the character that a scan of the end of `line` stumbled on. -/
def LexError.ofUnknown (line : List Char) (u : Token.Unknown) : LexError :=
  ⟨line, line.length - (u.after.length + 1), u.char⟩

def LexError.message (e : LexError) : String :=
  "Unknown character " ++ String.ofList (Text.quoted [e.char])

/-- The character at an offset of a text, none outside it. -/
def charAt? (text : List Char) (position : Int) : Option Char :=
  if position < 0 then none else text[position.toNat]?

/-! ## Scanned lines -/

/-- A token with the cursor just past it. -/
structure Lexeme where
  token : Token
  stop : Nat
  deriving DecidableEq, Repr

/-- A line with its tokens, the end not counted, and the error that stopped the scan. -/
structure Line where
  text : List Char
  lexemes : List Lexeme
  fault : Option LexError

namespace Line

/-- The tokens of `cs`, which is the end of a line `text`. -/
def scanFrom (symbols text cs : List Char) : List Lexeme × Option LexError :=
  match _scanned : Token.scan symbols cs with
  | .error u => ([], some (LexError.ofUnknown text u))
  | .ok (token, rest) =>
    if _notEnd : token = .finish then ([], none)
    else
      let (lexemes, fault) := scanFrom symbols text rest
      (⟨token, text.length - rest.length⟩ :: lexemes, fault)
termination_by cs.length
decreasing_by exact Token.length_lt_of_scan _scanned _notEnd

/-- A line whose variables are `symbols`. -/
def scan (symbols text : List Char) : Line :=
  let (lexemes, fault) := scanFrom symbols text text
  ⟨text, lexemes, fault⟩

/-- The tokens up to the first end of a line, which comes last. What stands after a line break is
not looked at. -/
def tokens (l : Line) : Except LexError (List Token) :=
  let all := l.lexemes.map (·.token)
  let before := all.takeWhile (· ≠ .newline)
  if before.length < all.length then .ok (before ++ [.newline])
  else
    match l.fault with
    | some e => .error e
    | none => .ok (before ++ [.finish])

end Line

end Multipoly
