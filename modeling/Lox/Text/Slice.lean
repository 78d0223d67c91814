import Lox.Text
/-!
# Slices of a text

A place in a text can be given by the number of bytes in front of it, in the
UTF-8 form of the text. Not every number is a place: one may lie inside a
character, and one may lie beyond the end. What is asked for at such a number
is not there, and neither is a slice that ends before it starts.
-/


namespace Lox

namespace Text

/-- The text behind the first `n` bytes of a text. There is none if these bytes end inside a
character, or if the text has fewer. -/
def dropBytes? : (n : Nat) → Text → Option Text
  | 0, t => some t
  | _ + 1, [] => none
  | n + 1, c :: t => if c.utf8Size ≤ n + 1 then dropBytes? (n + 1 - c.utf8Size) t else none

/-- The text in the first `n` bytes of a text, under the same conditions. -/
def takeBytes? : (n : Nat) → Text → Option Text
  | 0, _ => some []
  | _ + 1, [] => none
  | n + 1, c :: t =>
    if c.utf8Size ≤ n + 1 then (takeBytes? (n + 1 - c.utf8Size) t).map (c :: ·) else none

/-- The text from the byte number `i` up to the byte number `j`. -/
def slice? (t : Text) (i j : Nat) : Option Text :=
  if i ≤ j then (dropBytes? i t).bind (takeBytes? (j - i)) else none

theorem dropBytes?_cons (c : Char) (t : Text) (n : Nat) :
    dropBytes? (c.utf8Size + n) (c :: t) = dropBytes? n t := by
  obtain ⟨k, hk⟩ := Nat.exists_eq_succ_of_ne_zero (Nat.ne_of_gt c.utf8Size_pos)
  have hsum : c.utf8Size + n = k + n + 1 := by omega
  have hrest : k + n + 1 - c.utf8Size = n := by omega
  rw [hsum, dropBytes?, if_pos (by omega), hrest]

theorem takeBytes?_cons (c : Char) (t : Text) (n : Nat) :
    takeBytes? (c.utf8Size + n) (c :: t) = (takeBytes? n t).map (c :: ·) := by
  obtain ⟨k, hk⟩ := Nat.exists_eq_succ_of_ne_zero (Nat.ne_of_gt c.utf8Size_pos)
  have hsum : c.utf8Size + n = k + n + 1 := by omega
  have hrest : k + n + 1 - c.utf8Size = n := by omega
  rw [hsum, takeBytes?, if_pos (by omega), hrest]

@[simp] theorem dropBytes?_append (s t : Text) : dropBytes? (utf8Size s) (s ++ t) = some t := by
  induction s with
  | nil => cases t <;> rfl
  | cons c s ih => rw [utf8Size_cons, List.cons_append, dropBytes?_cons, ih]

@[simp] theorem takeBytes?_append (s t : Text) : takeBytes? (utf8Size s) (s ++ t) = some s := by
  induction s with
  | nil => cases t <;> rfl
  | cons c s ih => rw [utf8Size_cons, List.cons_append, takeBytes?_cons, ih, Option.map_some]

/-- **A number of bytes is a place** exactly if it is the size of some first characters. -/
theorem dropBytes?_eq_some_iff {t u : Text} {n : Nat} :
    dropBytes? n t = some u ↔ ∃ s, t = s ++ u ∧ utf8Size s = n := by
  constructor
  · intro h
    fun_induction dropBytes? n t with
    | case1 t => exact ⟨[], Option.some.inj h, rfl⟩
    | case2 => cases h
    | case3 n c t hle ih =>
      obtain ⟨s, rfl, hs⟩ := ih h
      exact ⟨c :: s, rfl, by rw [utf8Size_cons, hs]; omega⟩
    | case4 => cases h
  · rintro ⟨s, rfl, rfl⟩
    exact dropBytes?_append s u

/-- **The slice between two places** is the text between them. -/
theorem slice?_append (a s b : Text) :
    slice? (a ++ (s ++ b)) (utf8Size a) (utf8Size (a ++ s)) = some s := by
  rw [utf8Size_append, slice?, if_pos (Nat.le_add_right _ _), dropBytes?_append, Option.bind_some,
    Nat.add_sub_cancel_left, takeBytes?_append]

/-- A slice that ends before it starts is not there. -/
theorem slice?_of_lt (t : Text) {i j : Nat} (h : j < i) : slice? t i j = none := by
  rw [slice?, if_neg (Nat.not_le.2 h)]

end Text

end Lox
