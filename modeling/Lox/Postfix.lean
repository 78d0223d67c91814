import Lox.Expr
/-!
# Postfix order

`toPostfix` turns flat text into postfix order, character by character.
Only the four arithmetic operators and the parentheses are looked at; every
other character goes straight to the output. An operator waits on a stack
until one that binds no tighter, or the parenthesis that closes around it,
comes. Parentheses need not be balanced: a closing one without an opening one
lets out all that waits, and an opening one that is never closed comes out at
the end.
-/


namespace Lox

/-- How tightly an operator binds; none for any other character. -/
def precedence? : Char → Option Nat
  | '+' | '-' => some 1
  | '*' | '/' => some 2
  | _ => none

/-- What has been written so far, last character first, and the operators and opening parentheses
that wait, last one first. -/
structure Shunting where
  written : Text
  waiting : List Char
deriving DecidableEq

namespace Shunting

/-- Nothing written, nothing waiting. -/
def start : Shunting := ⟨[], []⟩

/-- Lets out, last one first, the longest run of waiting characters that satisfy `go`. -/
def release (s : Shunting) (go : Char → Bool) : Shunting where
  written := (s.waiting.takeWhile go).reverse ++ s.written
  waiting := s.waiting.dropWhile go

/-- Whether a waiting character is an operator that binds at least as tightly as `incoming`. -/
def bindsAtLeast (incoming : Nat) (c : Char) : Bool := (precedence? c).any (incoming ≤ ·)

/-- Takes in one character. -/
def step (s : Shunting) (c : Char) : Shunting :=
  if c = '(' then
    { s with waiting := c :: s.waiting }
  else if c = ')' then
    let released := s.release (· != '(')
    { released with waiting := released.waiting.tail }
  else
    match precedence? c with
    | none => { s with written := c :: s.written }
    | some incoming =>
      let released := s.release (bindsAtLeast incoming)
      { released with waiting := c :: released.waiting }

/-- The text, once all that waits is let out. -/
def finish (s : Shunting) : Text := s.written.reverse ++ s.waiting

end Shunting

/-- **The postfix order** of a flat text. -/
def toPostfix (t : Text) : Text := (t.foldl Shunting.step .start).finish

/-- The tree in postfix order, without parentheses: the postfix order of its flat text. -/
def Expr.polishText (e : Expr) : Text := toPostfix e.infixText

end Lox
