import Lox.Text
/-!
# Symbols

The punctuation and the operators. Each has one spelling of one or two
characters, and `Symbol.ahead?` takes the longest one at the front of a text.
-/


namespace Lox

/-- A punctuation mark or an operator. -/
inductive Symbol
  | leftParen
  | rightParen
  | leftBrace
  | rightBrace
  | comma
  | dot
  | minus
  | plus
  | semicolon
  | slash
  | star
  | bang
  | bangEqual
  | equal
  | equalEqual
  | greater
  | greaterEqual
  | less
  | lessEqual
deriving DecidableEq

namespace Symbol

/-- Every symbol. -/
def all : List Symbol :=
  [leftParen, rightParen, leftBrace, rightBrace, comma, dot, minus, plus, semicolon, slash, star,
    bang, bangEqual, equal, equalEqual, greater, greaterEqual, less, lessEqual]

/-- How a symbol is written in a source. -/
def spelling : Symbol → Text
  | leftParen => ['(']
  | rightParen => [')']
  | leftBrace => ['\x7b']
  | rightBrace => ['\x7d']
  | comma => [',']
  | dot => ['.']
  | minus => ['-']
  | plus => ['+']
  | semicolon => [';']
  | slash => ['/']
  | star => ['*']
  | bang => ['!']
  | bangEqual => ['!', '=']
  | equal => ['=']
  | equalEqual => ['=', '=']
  | greater => ['>']
  | greaterEqual => ['>', '=']
  | less => ['<']
  | lessEqual => ['<', '=']

/-- The name of a symbol in a token dump. -/
def name : Symbol → String
  | leftParen => "LeftParen"
  | rightParen => "RightParen"
  | leftBrace => "LeftBrace"
  | rightBrace => "RightBrace"
  | comma => "Comma"
  | dot => "Dot"
  | minus => "Minus"
  | plus => "Plus"
  | semicolon => "Semicolon"
  | slash => "Slash"
  | star => "Star"
  | bang => "Bang"
  | bangEqual => "BangEqual"
  | equal => "Equal"
  | equalEqual => "EqualEqual"
  | greater => "Greater"
  | greaterEqual => "GreaterEqual"
  | less => "Less"
  | lessEqual => "LessEqual"

/-- The symbol that `t` spells. -/
def ofSpelling? (t : Text) : Option Symbol := all.find? fun s => s.spelling = t

/-- The longest symbol at the front of `t`: two characters are tried before one. -/
def ahead? (t : Text) : Option Symbol := ofSpelling? (t.take 2) <|> ofSpelling? (t.take 1)

/-- Looking a spelling up gives its symbol. -/
theorem ofSpelling?_spelling (s : Symbol) : ofSpelling? s.spelling = some s := by
  cases s <;> decide

/-- Distinct symbols are written differently. -/
theorem spelling_injective {r s : Symbol} (h : r.spelling = s.spelling) : r = s := by
  simpa [h, ofSpelling?_spelling, eq_comm] using ofSpelling?_spelling r

theorem spelling_of_ofSpelling? {t : Text} {s : Symbol} (h : ofSpelling? t = some s) :
    s.spelling = t := by
  simpa using List.find?_some h

end Symbol

end Lox
