import Lox.Postfix
/-!
# Yards

A yard is the pass to postfix order at work. What waits stands on a stack,
each entry with the precedence it has been given, and is taken off it one entry
at a time. What is shunted is read as a character and may be more than that, a
character with its place in the text for instance; a yard goes by the
character alone, so the entries of its stack tell where they come from.
-/


namespace Lox

/-- What has been written, and what waits with its precedence. Both are given last one first. -/
structure Yard (α : Type) where
  output : List α
  stack : List (α × Nat)
deriving DecidableEq

namespace Yard

/-- How tightly a character binds that has to wait, an opening parenthesis least of all; none for
any other character. -/
def rank? (c : Char) : Option Nat := if c = '(' then some 0 else precedence? c

variable {α : Type} (char : α → Char)

/-- Nothing written, nothing waiting. -/
def start : Yard α := ⟨[], []⟩

/-- Writes what waits, up to an opening parenthesis, which is dropped. -/
def close (output : List α) : List (α × Nat) → Yard α
  | [] => ⟨output, []⟩
  | (a, _) :: stack => if char a = '(' then ⟨output, stack⟩ else close (a :: output) stack

/-- Writes what waits, up to an entry that binds less tightly than `incoming`. -/
def unwind (incoming : Nat) (output : List α) : List (α × Nat) → Yard α
  | [] => ⟨output, []⟩
  | (a, top) :: stack =>
    if top < incoming then ⟨output, (a, top) :: stack⟩ else unwind incoming (a :: output) stack

/-- Makes room on the stack for the character `c`. Nothing is taken off for an opening parenthesis,
nor from above one, nor from above what binds less tightly. -/
def makeRoom (y : Yard α) (c : Char) (incoming : Nat) : Yard α :=
  match y.stack with
  | [] => y
  | (a, top) :: _ =>
    if c = '(' ∨ char a = '(' ∨ top < incoming then y else unwind incoming y.output y.stack

theorem makeRoom_cons (output : List α) (e : α × Nat) (stack : List (α × Nat)) (c : Char)
    (p : Nat) :
    makeRoom char ⟨output, e :: stack⟩ c p =
      if c = '(' ∨ char e.1 = '(' ∨ e.2 < p then ⟨output, e :: stack⟩
      else unwind p output (e :: stack) := rfl

/-- Takes in one character. -/
def step (y : Yard α) (a : α) : Yard α :=
  if char a = ')' then
    close char y.output y.stack
  else
    match rank? (char a) with
    | none => { y with output := a :: y.output }
    | some incoming =>
      let roomy := y.makeRoom char (char a) incoming
      { roomy with stack := (a, incoming) :: roomy.stack }

/-- Takes in characters one after another. -/
def run (y : Yard α) (as : List α) : Yard α := as.foldl (step char) y

theorem run_append (y : Yard α) (as bs : List α) :
    y.run char (as ++ bs) = (y.run char as).run char bs := List.foldl_append

/-- What has been written, once all that waits is written too. -/
def finish (y : Yard α) : List α := y.output.reverse ++ y.stack.map Prod.fst

end Yard

end Lox
