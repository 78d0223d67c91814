import Lox.Attempt
import Lox.Text.Slice
/-!
# Cursors

A cursor is a place in a source that is kept as a number of bytes: what lies
ahead of it is a slice of the source, and asking for it panics if the number
is no place. Nothing in a cursor says that it is one. That it always is, and
that the line is right, holds of the cursors that can be got by moving a new
one, and by going back to one that was saved.
-/


namespace Lox

/-- A place in a source, as a number of bytes. Lines count from one. -/
structure Cursor where
  source : Text
  /-- The number of bytes passed. -/
  offset : Nat
  line : Nat
deriving DecidableEq

namespace Cursor

/-- A cursor in front of a source. -/
def start (source : Text) : Cursor := ⟨source, 0, 1⟩

/-- Whether all bytes are passed. -/
def isAtEnd (c : Cursor) : Bool := Text.utf8Size c.source ≤ c.offset

/-- The number of bytes not yet passed. It bounds the loops. -/
def left (c : Cursor) : Nat := Text.utf8Size c.source - c.offset

/-- The text not yet passed. -/
def rest (c : Cursor) : Attempt Text := .demand .noSlice (Text.dropBytes? c.offset c.source)

/-- The next character. -/
def peek (c : Cursor) : Attempt (Option Char) := return (← c.rest)[0]?

/-- The character after the next one. -/
def peekNext (c : Cursor) : Attempt (Option Char) := return (← c.rest)[1]?

/-- The cursor behind the character `x`. -/
def behind (c : Cursor) (x : Char) : Cursor :=
  { c with
    offset := c.offset + x.utf8Size
    line := if x = '\n' then c.line + 1 else c.line }

/-- Passes one character and returns it. -/
def next (c : Cursor) : Attempt (Option Char × Cursor) := do
  match ← c.peek with
  | none => return (none, c)
  | some x => return (some x, c.behind x)

/-- Passes `n` characters and then one more, which is returned. -/
def nth (c : Cursor) : (n : Nat) → Attempt (Option Char × Cursor)
  | 0 => c.next
  | n + 1 => do
    match ← c.next with
    | (none, c') => return (none, c')
    | (some _, c') => c'.nth n

/-- Passes the next character if it is `x`, and tells whether it was. -/
def advanceIf (c : Cursor) (x : Char) : Attempt (Bool × Cursor) := do
  if (← c.peek) = some x then
    return (true, (← c.next).2)
  else
    return (false, c)

/-- A cursor that shows what comes next stands between two parts of the source. -/
theorem exists_ahead_of_peek {c : Cursor} {o : Option Char} (h : c.peek = .ok o) :
    ∃ s t, c.source = s ++ t ∧ c.offset = Text.utf8Size s ∧ o = t[0]? := by
  cases hrest : Text.dropBytes? c.offset c.source with
  | none =>
    rw [peek, rest, hrest] at h
    cases h
  | some t =>
    rw [peek, rest, hrest] at h
    obtain ⟨s, hs, hoffset⟩ := Text.dropBytes?_eq_some_iff.1 hrest
    exact ⟨s, t, hs, hoffset.symm, (Except.ok.inj h).symm⟩

/-- A cursor with a character in front of it has not passed all bytes. -/
theorem left_behind_lt {c : Cursor} {x : Char} (h : c.peek = .ok (some x)) :
    (c.behind x).left < c.left := by
  obtain ⟨s, t, hs, hoffset, hx⟩ := exists_ahead_of_peek h
  obtain ⟨u, rfl⟩ := List.head?_eq_some_iff.1 (List.head?_eq_getElem? ▸ hx.symm)
  have hpos := x.utf8Size_pos
  simp only [left, behind, hs, hoffset, Text.utf8Size_append, Text.utf8Size_cons]
  omega

/-- A cursor is at the end exactly if it has no character in front of it. -/
theorem isAtEnd_of_peek {c : Cursor} {o : Option Char} (h : c.peek = .ok o) :
    c.isAtEnd = o.isNone := by
  obtain ⟨s, t, hs, hoffset, rfl⟩ := exists_ahead_of_peek h
  cases t with
  | nil => simp [isAtEnd, hs, hoffset]
  | cons x t =>
    have hpos := x.utf8Size_pos
    simp only [isAtEnd, hs, hoffset, Text.utf8Size_append, Text.utf8Size_cons]
    simp
    omega

/-- Passes characters as long as they satisfy `keep`. -/
def advanceWhile (c : Cursor) (keep : Char → Bool) : Attempt (Unit × Cursor) :=
  match _h : c.peek with
  | .error panic => throw panic
  | .ok none => return ((), c)
  | .ok (some x) => if keep x then (c.behind x).advanceWhile keep else return ((), c)
termination_by c.left
decreasing_by exact left_behind_lt _h

/-- The text between the earlier cursor `mark` and `c`. -/
def sliceFrom (c mark : Cursor) : Attempt Text :=
  .demand .noSlice (Text.slice? c.source mark.offset c.offset)

/-! ## Moves go forward -/

/-- A move does not bring bytes back that are passed. -/
def Forward {α : Type} (f : Cursor → Attempt (α × Cursor)) : Prop :=
  ∀ c, (f c).Ensures fun r => r.2.left ≤ c.left

/-- In front of the end `next` passes a character. -/
theorem ensures_next_lt {c : Cursor} (hc : c.isAtEnd = false) :
    c.next.Ensures fun r => r.2.left < c.left := by
  rw [next]
  cases hpeek : c.peek with
  | error panic => exact .throw
  | ok o =>
    cases o with
    | none => exact absurd ((isAtEnd_of_peek hpeek).symm.trans hc) (by decide)
    | some x => exact .pure (left_behind_lt hpeek)

theorem forward_next : Forward next := by
  intro c
  rw [next]
  cases hpeek : c.peek with
  | error panic => exact .throw
  | ok o =>
    cases o with
    | none => exact .pure (Nat.le_refl _)
    | some x => exact .pure (Nat.le_of_lt (left_behind_lt hpeek))

theorem forward_nth (n : Nat) : Forward (·.nth n) := by
  induction n with
  | zero => exact forward_next
  | succ n ih =>
    intro c
    refine (forward_next c).bind fun ⟨o, c'⟩ hle => ?_
    cases o with
    | none => exact .pure hle
    | some x => exact fun r hr => Nat.le_trans (ih c' r hr) hle

/-- In front of the end so does `nth`. -/
theorem ensures_nth_lt {c : Cursor} (hc : c.isAtEnd = false) (n : Nat) :
    (c.nth n).Ensures fun r => r.2.left < c.left := by
  cases n with
  | zero => exact ensures_next_lt hc
  | succ n =>
    refine (ensures_next_lt hc).bind fun ⟨o, c'⟩ hlt => ?_
    cases o with
    | none => exact .pure hlt
    | some x => exact fun r hr => Nat.lt_of_le_of_lt (forward_nth n c' r hr) hlt

theorem forward_advanceIf (x : Char) : Forward (·.advanceIf x) := by
  intro c
  refine Attempt.Ensures.bind (Attempt.ensures_self c.peek) fun o _ => ?_
  split
  · exact (forward_next c).bind fun r hle => .pure hle
  · exact .pure (Nat.le_refl _)

theorem forward_advanceWhile (keep : Char → Bool) : Forward (·.advanceWhile keep) := by
  intro c
  show (c.advanceWhile keep).Ensures fun r => r.2.left ≤ c.left
  fun_induction advanceWhile c keep with
  | case1 => exact .throw
  | case2 => exact .pure (Nat.le_refl _)
  | case3 c x hpeek hx ih =>
    exact fun r hr => Nat.le_trans (ih r hr) (Nat.le_of_lt (left_behind_lt hpeek))
  | case4 => exact .pure (Nat.le_refl _)

end Cursor

/-- A cursor, and the cursors that were saved on the way. -/
structure Walk where
  cursor : Cursor
  /-- The saved cursors, first one first. -/
  marks : List Cursor
deriving DecidableEq

namespace Walk

/-- What can be done on a walk. -/
inductive Step
  | next
  | nth (n : Nat)
  | advanceIf (x : Char)
  | advanceWhile (keep : Char → Bool)
  /-- Saves the cursor. -/
  | mark
  /-- Goes back to the saved cursor number `i`, if there is one. -/
  | restore (i : Nat)

/-- A walk that has not begun. -/
def start (source : Text) : Walk := ⟨.start source, []⟩

/-- Moves the cursor. What the move gives besides is not kept. -/
def move {α : Type} (w : Walk) (f : Cursor → Attempt (α × Cursor)) : Attempt Walk :=
  return { w with cursor := (← f w.cursor).2 }

/-- Takes one step. -/
def step (w : Walk) : Step → Attempt Walk
  | .next => w.move Cursor.next
  | .nth n => w.move (·.nth n)
  | .advanceIf x => w.move (·.advanceIf x)
  | .advanceWhile keep => w.move (·.advanceWhile keep)
  | .mark => return { w with marks := w.marks ++ [w.cursor] }
  | .restore i => return { w with cursor := w.marks[i]?.getD w.cursor }

/-- Takes steps one after another. -/
def steps (w : Walk) (ss : List Step) : Attempt Walk := ss.foldlM step w

end Walk

end Lox
