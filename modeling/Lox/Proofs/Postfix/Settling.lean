import Lox.Postfix
import Lox.Proofs.Lexical.Front
/-!
# Texts that settle

A text settles at a precedence if, read on top of any waiting characters that
bind less tightly, it adds its own postfix order to the output, but for some
of its operators, which are left waiting and bind at least that tightly. What
settles can be put together: an operator takes a left operand that settles at
its own precedence and a right operand that settles at the next one, and
parentheses around a text settle at any.
-/


namespace Lox

namespace Shunting

open Lexical

/-- What a text does to the output and to what waits. -/
def run (s : Shunting) (t : Text) : Shunting := t.foldl step s

theorem run_append (s : Shunting) (t u : Text) : s.run (t ++ u) = (s.run t).run u :=
  List.foldl_append

theorem run_cons (s : Shunting) (c : Char) (t : Text) : s.run (c :: t) = (s.step c).run t := rfl

/-! ## One character -/

/-- The characters that are not copied: the operators and the parentheses. -/
def marks : List Char := ['+', '-', '*', '/', '(', ')']

theorem precedence?_eq_none {c : Char} (h : c ∉ marks) : precedence? c = none := by
  unfold precedence?
  split <;> first | rfl | exact absurd (by decide) h

/-- Every other character is written at once. -/
theorem step_of_not_mark {s : Shunting} {c : Char} (h : c ∉ marks) :
    s.step c = { s with written := c :: s.written } := by
  have hopen : c ≠ '(' := fun hc => h (hc ▸ by decide)
  have hclose : c ≠ ')' := fun hc => h (hc ▸ by decide)
  rw [step, if_neg hopen, if_neg hclose, precedence?_eq_none h]

theorem ne_paren_of_precedence? {c : Char} {p : Nat} (h : precedence? c = some p) :
    c ≠ '(' ∧ c ≠ ')' := by
  constructor <;>
    · rintro rfl
      cases h

/-- An operator lets out what binds at least as tightly and waits itself. -/
theorem step_operator {c : Char} {p : Nat} (h : precedence? c = some p) {w : Text}
    {ops stack : List Char} (hops : ∀ d ∈ ops, bindsAtLeast p d = true)
    (hstack : ∀ d ∈ stack.head?, bindsAtLeast p d = false) :
    step ⟨w, ops ++ stack⟩ c = ⟨ops.reverse ++ w, c :: stack⟩ := by
  obtain ⟨hopen, hclose⟩ := ne_paren_of_precedence? h
  rw [step, if_neg hopen, if_neg hclose, h]
  simp only [release]
  rw [takeWhile_append_of_stop hops hstack, dropWhile_append_of_stop hops hstack]

/-- A closing parenthesis lets out what waits behind the last opening one, and drops that. -/
theorem step_close {w : Text} {ops stack : List Char} (hops : ∀ d ∈ ops, d ≠ '(') :
    step ⟨w, ops ++ '(' :: stack⟩ ')' = ⟨ops.reverse ++ w, stack⟩ := by
  have hgo : ∀ d ∈ ops, (d != '(') = true := fun d hd => bne_iff_ne.2 (hops d hd)
  have hstop : ∀ d ∈ ('(' :: stack).head?, (d != '(') = false := by
    intro d hd
    cases Option.mem_some_iff.1 hd
    decide
  rw [step, if_neg (by decide), if_pos rfl]
  simp only [release]
  rw [takeWhile_append_of_stop hgo hstop, dropWhile_append_of_stop hgo hstop, List.tail_cons]

/-! ## How tightly characters bind -/

/-- No character binds more tightly than the factors. -/
theorem bindsAtLeast_three (c : Char) : bindsAtLeast 3 c = false := by
  unfold bindsAtLeast precedence?
  split <;> rfl

theorem bindsAtLeast_mono {p q : Nat} (h : p ≤ q) {c : Char} (hc : bindsAtLeast q c = true) :
    bindsAtLeast p c = true := by
  simp only [bindsAtLeast, Option.any_eq_true, decide_eq_true_eq] at hc ⊢
  obtain ⟨r, hr, hqr⟩ := hc
  exact ⟨r, hr, Nat.le_trans h hqr⟩

theorem bindsAtLeast_self {c : Char} {p : Nat} (h : precedence? c = some p) :
    bindsAtLeast p c = true := by
  simp [bindsAtLeast, h]

theorem bindsAtLeast_succ {c : Char} {p : Nat} (h : precedence? c = some p) :
    bindsAtLeast (p + 1) c = false := by
  simp [bindsAtLeast, h]

theorem ne_open_of_bindsAtLeast {c : Char} {p : Nat} (h : bindsAtLeast p c = true) : c ≠ '(' := by
  rintro rfl
  cases h

/-! ## Settling -/

/-- **`Settles p t out`**: read on top of what binds less tightly than `p`, the text `t` has the
postfix order `out`, of which it leaves some operators waiting that bind at least as tightly as
`p`. -/
def Settles (p : Nat) (t out : Text) : Prop :=
  ∀ (w : Text) (stack : List Char), (∀ c ∈ stack.head?, bindsAtLeast p c = false) →
    ∃ done ops, run ⟨w, stack⟩ t = ⟨done.reverse ++ w, ops ++ stack⟩ ∧ done ++ ops = out ∧
      ∀ c ∈ ops, bindsAtLeast p c = true

namespace Settles

variable {p q : Nat} {t u out out' : Text}

/-- What settles at a precedence settles at every looser one. -/
theorem mono (h : Settles q t out) (hpq : p ≤ q) : Settles p t out := by
  intro w stack hstack
  have hstack' : ∀ c ∈ stack.head?, bindsAtLeast q c = false := by
    intro c hc
    have hnot := hstack c hc
    rw [← Bool.not_eq_true] at hnot ⊢
    exact fun hbinds => hnot (bindsAtLeast_mono hpq hbinds)
  obtain ⟨done, ops, hrun, hout, hops⟩ := h w stack hstack'
  exact ⟨done, ops, hrun, hout, fun c hc => bindsAtLeast_mono hpq (hops c hc)⟩

/-- At the tightest precedence nothing is left waiting. -/
theorem run_eq (h : Settles 3 t out) (w : Text) (stack : List Char) :
    run ⟨w, stack⟩ t = ⟨out.reverse ++ w, stack⟩ := by
  obtain ⟨done, ops, hrun, rfl, hops⟩ := h w stack fun c _ => bindsAtLeast_three c
  have hnil : ops = [] := by
    refine List.eq_nil_iff_forall_not_mem.2 fun c hc => ?_
    have hbinds := hops c hc
    rw [bindsAtLeast_three] at hbinds
    cases hbinds
  rw [hrun, hnil, List.append_nil, List.nil_append]

/-- And what leaves nothing waiting settles there. -/
theorem of_run_eq (h : ∀ w stack, run ⟨w, stack⟩ t = ⟨out.reverse ++ w, stack⟩) :
    Settles 3 t out := by
  intro w stack _
  exact ⟨out, [], h w stack, List.append_nil out, nofun⟩

/-- Texts that leave nothing waiting can follow each other. -/
theorem append (ht : Settles 3 t out) (hu : Settles 3 u out') : Settles 3 (t ++ u) (out ++ out') :=
  of_run_eq fun w stack => by
    rw [run_append, ht.run_eq, hu.run_eq, List.reverse_append, List.append_assoc]

/-- A text without operators and parentheses is its own postfix order. -/
theorem of_not_mark (h : ∀ c ∈ t, c ∉ marks) : Settles 3 t t := by
  refine of_run_eq fun w stack => ?_
  induction t generalizing w with
  | nil => rfl
  | cons c t ih =>
    obtain ⟨hc, ht⟩ := List.forall_mem_cons.1 h
    rw [run_cons, step_of_not_mark hc, ih ht, List.reverse_cons, List.append_assoc]
    rfl

/-- **An operation settles at the precedence of its operator**: the left operand is let out when the
operator comes, and the right one waits above it. -/
theorem operation {c : Char} (hc : precedence? c = some p) (ht : Settles p t out)
    (hu : Settles (p + 1) u out') : Settles p (t ++ c :: u) (out ++ out' ++ [c]) := by
  intro w stack hstack
  obtain ⟨done, ops, hrun, rfl, hops⟩ := ht w stack hstack
  have hwaiting : ∀ d ∈ (c :: stack).head?, bindsAtLeast (p + 1) d = false := by
    intro d hd
    cases Option.mem_some_iff.1 hd
    exact bindsAtLeast_succ hc
  obtain ⟨done', ops', hrun', rfl, hops'⟩ :=
    hu (ops.reverse ++ (done.reverse ++ w)) (c :: stack) hwaiting
  refine ⟨done ++ ops ++ done', ops' ++ [c], ?_, by simp, ?_⟩
  · rw [run_append, hrun, run_cons, step_operator hc hops hstack, hrun']
    simp
  · refine List.forall_mem_append.2 ⟨fun d hd => ?_, List.forall_mem_singleton.2 ?_⟩
    · exact bindsAtLeast_mono (Nat.le_succ p) (hops' d hd)
    · exact bindsAtLeast_self hc

/-- **Parentheses let out all that waits between them.** -/
theorem group (h : Settles 1 t out) : Settles 3 ('(' :: t ++ [')']) out := by
  refine of_run_eq fun w stack => ?_
  have hopen : step ⟨w, stack⟩ '(' = ⟨w, '(' :: stack⟩ := rfl
  have hstack : ∀ d ∈ ('(' :: stack).head?, bindsAtLeast 1 d = false := by
    intro d hd
    cases Option.mem_some_iff.1 hd
    rfl
  obtain ⟨done, ops, hrun, rfl, hops⟩ := h w ('(' :: stack) hstack
  have hclosed : ∀ d ∈ ops, d ≠ '(' := fun d hd => ne_open_of_bindsAtLeast (hops d hd)
  rw [run_append, run_cons, run_cons, hopen, hrun, step_close hclosed, List.reverse_append,
    List.append_assoc]
  rfl

/-- **The postfix order of a text that settles.** -/
theorem toPostfix_eq (h : Settles 1 t out) : toPostfix t = out := by
  obtain ⟨done, ops, hrun, rfl, -⟩ := h [] [] nofun
  have hend : toPostfix t = (run ⟨[], []⟩ t).finish := rfl
  rw [hend, hrun, finish, List.append_nil, List.append_nil, List.reverse_reverse]

end Settles

end Shunting

end Lox
