/-!
# Attempts

What is asked for need not be there, and a sum need not fit into its machine
integer. An attempt is a computation that gives a result or panics; it panics
as soon as something is not there that it asks for. Whether a sum that does
not fit is a panic is settled when a program is built. That an attempt cannot
panic is then a statement about it: it is `pure a`.
-/


namespace Lox

/-- Why an attempt is broken off. -/
inductive Panic
  /-- A slice that is not there. -/
  | noSlice
  /-- A text that was to be a number and is none. -/
  | noNumeral
  /-- A machine integer that would go out of range. -/
  | overflow
deriving DecidableEq

/-- A computation that may panic. -/
abbrev Attempt := Except Panic

/-- What is there, or the panic if nothing is. -/
def Attempt.demand {α : Type} (panic : Panic) : Option α → Attempt α
  | some a => pure a
  | none => throw panic

namespace Attempt

variable {α : Type} {panic : Panic}

@[simp] theorem demand_some (a : α) : demand panic (some a) = pure a := rfl

@[simp] theorem demand_none : demand panic (none : Option α) = throw panic := rfl

/-- If there is a result, it satisfies `P`. -/
def Ensures (x : Attempt α) (P : α → Prop) : Prop := ∀ a, x = .ok a → P a

variable {β : Type} {P : α → Prop} {Q : β → Prop}

theorem Ensures.pure {a : α} (h : P a) : Ensures (.ok a) P := fun _ ha => Except.ok.inj ha ▸ h

theorem Ensures.throw : Ensures (.error panic) P := fun _ ha => by cases ha

/-- Of its result this much is known of any attempt. -/
theorem ensures_self (x : Attempt α) : x.Ensures (x = .ok ·) := fun _ ha => ha

/-- What holds of the result of an attempt is there to go on with. -/
theorem Ensures.bind {x : Attempt α} {f : α → Attempt β} (hx : x.Ensures P)
    (hf : ∀ a, P a → (f a).Ensures Q) : Ensures (x >>= f) Q := by
  intro b hb
  cases h : x with
  | error panic =>
    rw [h] at hb
    cases hb
  | ok a =>
    rw [h] at hb
    exact hf a (hx a h) b hb

end Attempt

/-! ## Machine integers -/

/-- What becomes of a machine integer that goes out of range. -/
inductive Overflow
  /-- It wraps around. -/
  | wraps
  /-- It is a panic. -/
  | panics
deriving DecidableEq

namespace Overflow

/-- The integer with these bits, which should be `exact`. -/
def settle (overflow : Overflow) (bits : Int32) (exact : Int) : Attempt Int32 :=
  if overflow = panics ∧ bits.toInt ≠ exact then throw .overflow else pure bits

/-- The sum of two signed machine integers of 32 bits. -/
def add (overflow : Overflow) (a b : Int32) : Attempt Int32 :=
  overflow.settle (a + b) (a.toInt + b.toInt)

/-- Their difference. -/
def sub (overflow : Overflow) (a b : Int32) : Attempt Int32 :=
  overflow.settle (a - b) (a.toInt - b.toInt)

variable {overflow : Overflow} {bits : Int32} {exact : Int}

/-- A result in range is given as it is. -/
theorem settle_of_eq (h : bits.toInt = exact) : overflow.settle bits exact = pure bits :=
  if_neg fun hout => hout.2 h

/-- One out of range is a panic, or it is given with its bits. -/
theorem settle_eq_pure_or (overflow : Overflow) (bits : Int32) (exact : Int) :
    overflow.settle bits exact = pure bits ∨
      overflow = panics ∧ bits.toInt ≠ exact ∧ overflow.settle bits exact = throw .overflow := by
  unfold settle
  split
  · rename_i hout
    exact .inr ⟨hout.1, hout.2, rfl⟩
  · exact .inl rfl

theorem panics_settle_of_ne (h : bits.toInt ≠ exact) :
    panics.settle bits exact = throw .overflow := if_pos ⟨rfl, h⟩

end Overflow

end Lox
