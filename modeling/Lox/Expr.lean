import Lox.Number.Shortest
import Lox.Token
/-!
# Expressions

The tree of an expression. An operator keeps its whole token and so its
lexeme and line; a literal keeps only its value; parentheses are kept as
groupings.
-/


namespace Lox

/-- The value of a literal. -/
inductive Literal
  | number (value : Number)
  | str (value : Text)
  | boolean (value : Bool)
  | nil
deriving DecidableEq

namespace Literal

/-- How a value is written. A string is written without quotes. -/
def text : Literal → Text
  | number n => n.text
  | str s => s
  | boolean true => "true".toList
  | boolean false => "false".toList
  | nil => "nil".toList

/-- Equality that compares numbers arithmetically. -/
def equal : Literal → Literal → Bool
  | number m, number n => m.equal n
  | a, b => a == b

end Literal

/-- The value of the literal that a token is. -/
def TokenData.literal? : TokenData → Option Literal
  | number n => some (.number n)
  | str s => some (.str s)
  | keyword .trueWord => some (.boolean true)
  | keyword .falseWord => some (.boolean false)
  | keyword .nilWord => some .nil
  | _ => none

/-- The tree of an expression. -/
inductive Expr
  | literal (value : Literal)
  | group (inner : Expr)
  | unary (operator : Token) (operand : Expr)
  | binary (left : Expr) (operator : Token) (right : Expr)
deriving DecidableEq

namespace Expr

/-- Equality of trees, operator tokens with lexeme and line included, that compares numbers
arithmetically. -/
def equal : Expr → Expr → Bool
  | literal a, literal b => a.equal b
  | group a, group b => a.equal b
  | unary o a, unary p b => o.equal p && a.equal b
  | binary a o b, binary c p d => a.equal c && o.equal p && b.equal d
  | _, _ => false

/-- The tree as nested lists, operator first. -/
def lispText : Expr → Text
  | literal v => v.text
  | group e => "(group ".toList ++ e.lispText ++ [')']
  | unary o e => '(' :: o.lexeme ++ ' ' :: e.lispText ++ [')']
  | binary l o r => '(' :: o.lexeme ++ ' ' :: l.lispText ++ ' ' :: r.lispText ++ [')']

/-- The tree as flat text without blanks, every grouping kept. A nil is left out. -/
def infixText : Expr → Text
  | literal .nil => []
  | literal v => v.text
  | group e => '(' :: e.infixText ++ [')']
  | unary o e => o.lexeme ++ e.infixText
  | binary l o r => l.infixText ++ o.lexeme ++ r.infixText

end Expr

end Lox
