import Lox.Expr
import Lox.Expr.Level
/-!
# Reading expressions

Recursive descent over a list of tokens. Reading an expression either is done,
with the tree and the tokens behind it, or is stuck, with what was expected
and the tokens from the one that does not fit. Each outcome carries a bound
on the tokens that are left, which is why the descent ends: a reading that is
done has used up a token, and one that has used up none goes down a level.
-/


namespace Lox

/-- What a reader was looking for when it got stuck. -/
inductive Expected
  | expression
  | rightParen
  | semicolon
deriving DecidableEq

/-- The outcome of reading. When it is done, fewer than `bound` tokens are left; when it is stuck,
no more than `bound`. -/
inductive Reading (bound : Nat)
  | done (e : Expr) (rest : List Token) (length_lt : rest.length < bound)
  | stuck (expected : Expected) (rest : List Token) (length_le : rest.length ≤ bound)

namespace Reading

/-- The same outcome under a looser bound. -/
def widen {m n : Nat} (h : m ≤ n) : Reading m → Reading n
  | done e rest lt => done e rest (Nat.lt_of_lt_of_le lt h)
  | stuck x rest le => stuck x rest (Nat.le_trans le h)

/-- The outcome with `f` applied to the tree. -/
def map {n : Nat} (f : Expr → Expr) : Reading n → Reading n
  | done e rest lt => done (f e) rest lt
  | stuck x rest le => stuck x rest le

end Reading

mutual

/-- Reads the longest expression of level `l`. -/
def readLevel (l : Level) (ts : List Token) : Reading ts.length :=
  if _h : l = .unary then
    match ts with
    | [] => .stuck .expression [] (Nat.le_refl _)
    | t :: rest =>
      if t.isUnaryOperator then
        ((readLevel .unary rest).map (.unary t)).widen (Nat.le_succ _)
      else
        readPrimary t rest
  else
    match readLevel l.operand ts with
    | .stuck x rest le => .stuck x rest le
    | .done left rest lt => (readChain l left rest).widen lt
termination_by 8 * ts.length + l.rank + 1
decreasing_by
  · simp only [List.length_cons, Level.rank]; omega
  · simp only [List.length_cons]; omega
  · have := Level.rank_operand_lt _h
    omega
  · omega

/-- Goes on behind an operand of level `l`: as long as an operator of that level follows, it and
the next operand are joined to `left`. -/
def readChain (l : Level) (left : Expr) (ts : List Token) : Reading (ts.length + 1) :=
  match ts with
  | [] => .done left [] (Nat.lt_succ_self _)
  | t :: rest =>
    if t.isOperatorOf l then
      match readLevel l.operand rest with
      | .stuck x rest' le => .stuck x rest' (by simp only [List.length_cons]; omega)
      | .done right rest' lt =>
        (readChain l (.binary left t right) rest').widen (by simp only [List.length_cons]; omega)
    else
      .done left (t :: rest) (Nat.lt_succ_self _)
termination_by 8 * ts.length
decreasing_by
  · have := Level.rank_le l.operand
    simp only [List.length_cons]; omega
  · simp only [List.length_cons]; omega

/-- Reads a literal or a grouping that starts with the token `t`. -/
def readPrimary (t : Token) (rest : List Token) : Reading (rest.length + 1) :=
  match t.data.literal? with
  | some v => .done (.literal v) rest (Nat.lt_succ_self _)
  | none =>
    if t.isSymbol .leftParen then
      match readLevel .comma rest with
      | .stuck x rest' le => .stuck x rest' (by omega)
      | .done _ [] _ => .stuck .rightParen [] (Nat.zero_le _)
      | .done e (close :: rest') lt =>
        if close.isSymbol .rightParen then
          .done (.group e) rest' (by simp only [List.length_cons] at lt; omega)
        else
          .stuck .rightParen (close :: rest') (by omega)
    else
      .stuck .expression (t :: rest) (Nat.le_refl _)
termination_by 8 * (rest.length + 1)
decreasing_by simp only [Level.rank]; omega

end

/-- Reads an expression. -/
def readExpression (ts : List Token) : Reading ts.length := readLevel .comma ts

/-- Reads an expression and the semicolon behind it. -/
def readTerminated (ts : List Token) : Reading ts.length :=
  match readExpression ts with
  | .stuck x rest le => .stuck x rest le
  | .done _ [] _ => .stuck .semicolon [] (Nat.zero_le _)
  | .done e (t :: rest) lt =>
    if t.isSymbol .semicolon then
      .done e rest (by simp only [List.length_cons] at lt; omega)
    else
      .stuck .semicolon (t :: rest) (by omega)

end Lox
