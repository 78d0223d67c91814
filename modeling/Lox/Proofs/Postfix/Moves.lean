import Lox.Proofs.Postfix.Settling
import Mathlib.Data.List.TakeWhile
/-!
# The moves of the postfix pass

What one character can do to the output and to what waits, said once: it is
copied, it opens a parenthesis, it closes one or has none to close, or it is an
operator and waits behind those that bind less tightly.
-/


namespace Lox

namespace Shunting

open Lexical

/-- The operators. They wait until one that binds no tighter comes. -/
def operators : List Char := ['+', '-', '*', '/']

theorem mem_operators_of_precedence? {c : Char} {p : Nat} (h : precedence? c = some p) :
    c ∈ operators := by
  unfold precedence? at h
  split at h <;> first | decide | cases h

theorem not_mem_marks_of_precedence? {c : Char} (hopen : c ≠ '(') (hclose : c ≠ ')')
    (h : precedence? c = none) : c ∉ marks := by
  intro hc
  have hmarks : (marks.all fun d => d = '(' ∨ d = ')' ∨ (precedence? d).isSome) = true := by decide
  rcases of_decide_eq_true (List.all_eq_true.1 hmarks c hc) with rfl | rfl | hsome
  · exact hopen rfl
  · exact hclose rfl
  · rw [h] at hsome
    cases hsome

theorem ne_paren_of_not_mark {c : Char} (h : c ∉ marks) : c ≠ '(' ∧ c ≠ ')' := by
  constructor <;>
    · rintro rfl
      exact h (by decide)

/-- **What the character `c` does.** The operators `ops` are let out, the last one first. -/
inductive Move : Shunting → Char → Shunting → Prop
  | copy {w : Text} {stack : List Char} {c : Char} : c ∉ marks →
      Move ⟨w, stack⟩ c ⟨c :: w, stack⟩
  | opening {w : Text} {stack : List Char} : Move ⟨w, stack⟩ '(' ⟨w, '(' :: stack⟩
  /-- A closing parenthesis and the opening one that it drops. -/
  | closing {w : Text} {ops stack : List Char} : '(' ∉ ops →
      Move ⟨w, ops ++ '(' :: stack⟩ ')' ⟨ops.reverse ++ w, stack⟩
  /-- A closing parenthesis that has none to close. -/
  | stray {w : Text} {ops : List Char} : '(' ∉ ops → Move ⟨w, ops⟩ ')' ⟨ops.reverse ++ w, []⟩
  | operator {w : Text} {ops stack : List Char} {c : Char} {p : Nat} : precedence? c = some p →
      (∀ d ∈ ops, bindsAtLeast p d = true) → (∀ d ∈ stack.head?, bindsAtLeast p d = false) →
      Move ⟨w, ops ++ stack⟩ c ⟨ops.reverse ++ w, c :: stack⟩

/-- A closing parenthesis without a partner lets out all that waits. -/
theorem step_stray {w : Text} {ops : List Char} (hops : ∀ d ∈ ops, d ≠ '(') :
    step ⟨w, ops⟩ ')' = ⟨ops.reverse ++ w, []⟩ := by
  have hgo : ∀ d ∈ ops, (d != '(') = true := fun d hd => bne_iff_ne.2 (hops d hd)
  rw [step, if_neg (by decide), if_pos rfl]
  simp only [release]
  rw [List.takeWhile_eq_self_iff.2 hgo, List.dropWhile_eq_nil_iff.2 hgo, List.tail_nil]

/-- **Every step is such a move.** -/
theorem move_step (s : Shunting) (c : Char) : Move s c (s.step c) := by
  obtain ⟨w, waiting⟩ := s
  by_cases hopen : c = '('
  · subst hopen
    exact .opening
  by_cases hclose : c = ')'
  · subst hclose
    obtain ⟨ops, stack, rfl, hops, hhead⟩ := exists_run (· != '(') waiting
    have hops' : ∀ d ∈ ops, d ≠ '(' := fun d hd => bne_iff_ne.1 (hops d hd)
    have hne : '(' ∉ ops := fun hmem => hops' _ hmem rfl
    cases stack with
    | nil =>
      rw [List.append_nil, step_stray hops']
      exact .stray hne
    | cons d stack =>
      have hd : d = '(' := by simpa using hhead d rfl
      subst hd
      rw [step_close hops']
      exact .closing hne
  cases hp : precedence? c with
  | none =>
    have hc := not_mem_marks_of_precedence? hopen hclose hp
    rw [step_of_not_mark hc]
    exact .copy hc
  | some p =>
    obtain ⟨ops, stack, rfl, hops, hhead⟩ := exists_run (bindsAtLeast p) waiting
    rw [step_operator hp hops hhead]
    exact .operator hp hops hhead

end Shunting

end Lox
