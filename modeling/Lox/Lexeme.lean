import Lox.Token
import Lox.Number.Numeral
import Lox.Lexeme.Comment
/-!
# Lexemes

`munch` looks at the front of a text and decides what stands there and how
far it reaches: always the longest lexeme or comment that starts there. A
quoted text or a block comment that is never closed reaches to the end of the
text, and a character that starts nothing stands alone; these are faults.
-/


namespace Lox

/-- Why a stretch of source is neither a token nor something to skip. -/
inductive ScanError
  | unexpectedCharacter (c : Char)
  | unterminatedString
  | unterminatedBlockComment
deriving DecidableEq

/-- The fault in words. The character is not repeated. -/
def ScanError.message : ScanError → Text
  | unexpectedCharacter _ => "Unexpected character.".toList
  | unterminatedString => "Unterminated string.".toList
  | unterminatedBlockComment => "Unterminated block comment.".toList

/-- What stands at the front of a text. -/
inductive Finding
  | token (data : TokenData)
  /-- A blank or a comment. -/
  | trivia
  | fault (error : ScanError)
deriving DecidableEq

/-- What stands at the front of a text, and how many characters it takes. -/
structure Munch where
  finding : Finding
  length : Nat
deriving DecidableEq

/-- The blanks: space, carriage return, tab and line feed. -/
def isBlank (c : Char) : Bool := c == ' ' || c == '\r' || c == '\t' || c == '\n'

/-- Whether a word can start with `c`: an ASCII letter or an underscore. -/
def isWordStart (c : Char) : Bool := c.isAlpha || c == '_'

/-- Whether a word can go on with `c`. -/
def isWordPart (c : Char) : Bool := isWordStart c || c.isDigit

namespace Munch

/-- A quoted text whose opening quote is followed by `t`. It holds no quote. -/
def quoted (t : Text) : Munch :=
  let value := t.takeWhile (· != '"')
  if value.length = t.length then
    ⟨.fault .unterminatedString, 1 + t.length⟩
  else
    ⟨.token (.str value), value.length + 2⟩

/-- A number. `t` starts with a digit. -/
def number (t : Text) : Munch :=
  let numeral := Numeral.ahead t
  ⟨.token (.number numeral.value), numeral.text.length⟩

/-- A word. `t` starts with a character that can start one. -/
def word (t : Text) : Munch :=
  let lexeme := t.takeWhile isWordPart
  ⟨.token (.ofWord lexeme), lexeme.length⟩

/-- A symbol, or the first character of `c :: t` as one that starts nothing. -/
def symbol (c : Char) (t : Text) : Munch :=
  match Symbol.ahead? (c :: t) with
  | some s => ⟨.token (.symbol s), s.spelling.length⟩
  | none => ⟨.fault (.unexpectedCharacter c), 1⟩

/-- A comment, or the symbol, that starts with a slash followed by `t`. -/
def slash (t : Text) : Munch :=
  match t with
  | '/' :: rest => ⟨.trivia, Comment.lineLength rest⟩
  | '*' :: rest =>
    match Comment.blockLength? rest with
    | some n => ⟨.trivia, n⟩
    | none => ⟨.fault .unterminatedBlockComment, 2 + rest.length⟩
  | _ => symbol '/' t

end Munch

/-- **What stands at the front of `c :: t`.** -/
def munch (c : Char) (t : Text) : Munch :=
  if isBlank c then ⟨.trivia, 1⟩
  else if c = '"' then .quoted t
  else if c = '/' then .slash t
  else if c.isDigit then .number (c :: t)
  else if isWordStart c then .word (c :: t)
  else .symbol c t

namespace Munch

theorem symbol_length_pos (c : Char) (t : Text) : 0 < (symbol c t).length := by
  unfold symbol
  split
  · rename_i s _
    cases s <;> decide
  · exact Nat.one_pos

theorem slash_length_pos (t : Text) : 0 < (slash t).length := by
  unfold slash
  split
  · simp only [Comment.lineLength]; omega
  · split
    · rename_i h
      obtain ⟨m, -, rfl⟩ := Option.map_eq_some_iff.1 h
      simp
    · simp only; omega
  · exact symbol_length_pos _ _

/-- Something is always taken, so a text is used up. -/
theorem length_pos (c : Char) (t : Text) : 0 < (munch c t).length := by
  unfold munch
  split
  · decide
  split
  · unfold quoted
    simp only
    split
    · simp only; omega
    · simp
  split
  · exact slash_length_pos t
  split
  · rename_i hc
    simp only [number, Numeral.ahead, Numeral.text, List.takeWhile_cons, hc, if_true]
    split <;> simp
  split
  · rename_i hc
    simp [word, isWordPart, hc]
  · exact symbol_length_pos c t

end Munch

end Lox
