import Lox.Token
/-!
# Levels of binding

Binary operators fall into five levels, and an operand of one level is an
expression of the next tighter one. Tightest are the unary expressions.
-/


namespace Lox

/-- How tightly an expression binds, loosest first. -/
inductive Level
  | comma
  | equality
  | comparison
  | term
  | factor
  | unary
deriving DecidableEq

namespace Level

/-- The binary operators of a level. -/
def operators : Level → List Symbol
  | comma => [.comma]
  | equality => [.bangEqual, .equalEqual]
  | comparison => [.greater, .greaterEqual, .less, .lessEqual]
  | term => [.minus, .plus]
  | factor => [.star, .slash]
  | unary => []

/-- The level of the operands. -/
def operand : Level → Level
  | comma => equality
  | equality => comparison
  | comparison => term
  | term => factor
  | factor => unary
  | unary => unary

/-- How many levels are tighter. -/
def rank : Level → Nat
  | comma => 5
  | equality => 4
  | comparison => 3
  | term => 2
  | factor => 1
  | unary => 0

theorem rank_operand_lt {l : Level} (h : l ≠ unary) : l.operand.rank < l.rank := by
  cases l <;> simp_all [operand, rank]

theorem rank_le (l : Level) : l.rank ≤ 5 := by cases l <;> decide

end Level

namespace Token

/-- Whether `t` is a binary operator of level `l`. -/
def isOperatorOf (t : Token) (l : Level) : Bool := l.operators.any t.isSymbol

/-- Whether `t` is a unary operator. -/
def isUnaryOperator (t : Token) : Bool := t.isSymbol .bang || t.isSymbol .minus

end Token

end Lox
