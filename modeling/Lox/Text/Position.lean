import Lox.Text
/-!
# Positions in a source

A position is a place between two characters of a source: the text still
ahead of it, how many bytes lie behind it, and the line it is on. Every move
goes forward over some characters, counted by `past`; a saved position is an
ordinary value.
-/


namespace Lox

/-- A place in a source. Lines count from one. -/
structure Position where
  /-- The text not yet passed. -/
  ahead : Text
  /-- The UTF-8 length of the text passed. -/
  offset : Nat
  /-- One more than the number of line breaks passed. -/
  line : Nat
deriving DecidableEq

namespace Position

/-- The place before the first character of `source`. -/
def start (source : Text) : Position := ⟨source, 0, 1⟩

/-- The next character. -/
def peek? (p : Position) : Option Char := p.ahead[0]?

/-- The character after the next one. -/
def peekNext? (p : Position) : Option Char := p.ahead[1]?

/-- The place `n` characters further on, or the end of the source if fewer are left. -/
def past (p : Position) (n : Nat) : Position where
  ahead := p.ahead.drop n
  offset := p.offset + Text.utf8Size (p.ahead.take n)
  line := p.line + Text.lineBreaks (p.ahead.take n)

/-- Passes one character and returns it. -/
def next (p : Position) : Option Char × Position := (p.peek?, p.past 1)

/-- Passes `n` characters and then one more, which is returned. At the end of the source there is
none to return. -/
def nth (p : Position) (n : Nat) : Option Char × Position := (p.ahead[n]?, p.past (n + 1))

@[simp] theorem ahead_past (p : Position) (n : Nat) : (p.past n).ahead = p.ahead.drop n := rfl

@[simp] theorem past_zero (p : Position) : p.past 0 = p := by
  simp [past]

/-- The place between two parts of a source. -/
theorem past_start_append (s rest : Text) :
    (start (s ++ rest)).past s.length = ⟨rest, Text.utf8Size s, 1 + Text.lineBreaks s⟩ := by
  simp [past, start]

/-- Two moves in a row are one longer move. -/
theorem past_past (p : Position) (m n : Nat) : (p.past m).past n = p.past (m + n) := by
  simp [past, List.take_add, Nat.add_assoc]

end Position

end Lox
