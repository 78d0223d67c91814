import Lox.Number
import Lox.Token.Symbol
import Lox.Token.Keyword
/-!
# Tokens

A token says what was read (its data), the text it was read from (its lexeme)
and the line on which that text starts. The data of a string and of a number
hold the decoded value, which need not be recoverable from the lexeme: tokens
can also be made by hand.
-/


namespace Lox

/-- What a token is, with the decoded value of a literal. -/
inductive TokenData
  | symbol (s : Symbol)
  | keyword (k : Keyword)
  | identifier
  | str (value : Text)
  | number (value : Number)
  /-- The end of the tokens. -/
  | eof
deriving DecidableEq

/-- A token: its data, its lexeme and the line it starts on. -/
structure Token where
  data : TokenData
  lexeme : Text
  line : Nat
deriving DecidableEq

namespace TokenData

/-- The name of the kind of token in a dump. -/
def name : TokenData → String
  | symbol s => s.name
  | keyword k => k.name
  | identifier => "Identifier"
  | str _ => "Str"
  | number _ => "Number"
  | eof => "Eof"

/-- What a word is: a keyword if it spells one, else an identifier. -/
def ofWord (t : Text) : TokenData :=
  match Keyword.ofSpelling? t with
  | some k => keyword k
  | none => identifier

/-- Equality that compares numbers arithmetically. -/
def equal : TokenData → TokenData → Bool
  | number m, number n => m.equal n
  | a, b => a == b

end TokenData

namespace Token

/-- The token that stands for the end of the tokens. -/
def eof (line : Nat) : Token := ⟨.eof, [], line⟩

/-- Whether `t` marks the end of the tokens. -/
def isEof (t : Token) : Bool := t.data == .eof

/-- Whether `t` is the symbol `s`. -/
def isSymbol (t : Token) (s : Symbol) : Bool := t.data == .symbol s

/-- Whether `t` is a word that starts a statement or a declaration. -/
def startsStatement (t : Token) : Bool :=
  match t.data with
  | .keyword k => k.startsStatement
  | _ => false

/-- Where a diagnostic about `t` points. -/
def location (t : Token) : Text :=
  if t.isEof then " at end".toList else " at '".toList ++ t.lexeme ++ "'".toList

/-- A diagnostic about a token that is no end marker points at its lexeme. -/
theorem location_of_not_isEof {t : Token} (h : t.isEof = false) :
    t.location = " at '".toList ++ t.lexeme ++ "'".toList := by
  rw [location, h]
  rfl

/-- Equality that compares numbers arithmetically. -/
def equal (a b : Token) : Bool := a.data.equal b.data && a.lexeme == b.lexeme && a.line == b.line

end Token

end Lox
