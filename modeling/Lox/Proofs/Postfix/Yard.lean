import Lox.Postfix.Yard
import Lox.Proofs.Postfix.Moves
import Lox.Proofs.Postfix.Parentheses
/-!
# How the stack of a yard stands

The stack of a yard is made of layers: an opening parenthesis begins one, and
within a layer an operator stands only on what binds less tightly. There are
two precedences of operators, so a layer has two at most. Since a yard does not
look at what its characters are marked with, it can be run on characters with
their places, and then the stack tells which opening parentheses it holds: those
that have no partner so far.
-/


namespace Lox

namespace Yard

open Shunting (marks unmatched matchNext bindsAtLeast)

variable {α β : Type} {char : α → Char}

/-! ## Only characters are looked at -/

/-- The yard with `f` applied to everything in it. -/
def map (f : α → β) (y : Yard α) : Yard β := ⟨y.output.map f, y.stack.map (Prod.map f id)⟩

section Map

variable (char : β → Char) (f : α → β)

theorem map_close (output : List α) (stack : List (α × Nat)) :
    (close (char ∘ f) output stack).map f =
      close char (output.map f) (stack.map (Prod.map f id)) := by
  induction stack generalizing output with
  | nil => rfl
  | cons e stack ih =>
    by_cases hopen : (char ∘ f) e.1 = '('
    · rw [close, if_pos hopen]
      exact (if_pos hopen).symm
    · rw [close, if_neg hopen, ih]
      exact (if_neg hopen).symm

theorem map_unwind (p : Nat) (output : List α) (stack : List (α × Nat)) :
    (unwind p output stack).map f = unwind p (output.map f) (stack.map (Prod.map f id)) := by
  induction stack generalizing output with
  | nil => rfl
  | cons e stack ih =>
    by_cases hlt : e.2 < p
    · rw [unwind, if_pos hlt]
      exact (if_pos hlt).symm
    · rw [unwind, if_neg hlt, ih]
      exact (if_neg hlt).symm

theorem map_makeRoom (y : Yard α) (c : Char) (p : Nat) :
    (y.makeRoom (char ∘ f) c p).map f = (y.map f).makeRoom char c p := by
  obtain ⟨output, stack⟩ := y
  cases stack with
  | nil => rfl
  | cons e stack =>
    by_cases hguard : c = '(' ∨ (char ∘ f) e.1 = '(' ∨ e.2 < p
    · rw [makeRoom_cons, if_pos hguard]
      exact (if_pos hguard).symm
    · rw [makeRoom_cons, if_neg hguard, map_unwind]
      exact (if_neg hguard).symm

theorem map_step (y : Yard α) (a : α) :
    (y.step (char ∘ f) a).map f = (y.map f).step char (f a) := by
  unfold step
  simp only [Function.comp_apply]
  split
  · exact map_close char f y.output y.stack
  split
  · rfl
  · rename_i p _
    have hroom := map_makeRoom char f y (char (f a)) p
    rw [← hroom]
    rfl

/-- **A yard goes by the characters alone**: what else is attached to them is carried along. -/
theorem map_run (y : Yard α) (as : List α) :
    (y.run (char ∘ f) as).map f = (y.map f).run char (as.map f) := by
  induction as generalizing y with
  | nil => rfl
  | cons a as ih =>
    have hstep := ih (y.step (char ∘ f) a)
    rw [map_step] at hstep
    exact hstep

end Map

/-! ## Layers -/

variable {stack ops below : List (α × Nat)} {a : α} {p : Nat}

/-- **A layered stack.** An opening parenthesis may stand on anything, and an operator on what binds
less tightly. -/
inductive Layered (char : α → Char) : List (α × Nat) → Prop
  | empty : Layered char []
  | opening {stack : List (α × Nat)} {a : α} : Layered char stack → char a = '(' →
      Layered char ((a, 0) :: stack)
  | operator {stack : List (α × Nat)} {a : α} {p : Nat} : Layered char stack →
      precedence? (char a) = some p → (∀ e ∈ stack.head?, e.2 < p) →
      Layered char ((a, p) :: stack)

/-- The operators and how tightly they bind. -/
theorem precedence?_cases {c : Char} (h : precedence? c = some p) :
    c ∈ ['+', '-'] ∧ p = 1 ∨ c ∈ ['*', '/'] ∧ p = 2 := by
  unfold precedence? at h
  split at h <;> simp_all

theorem pos_of_precedence? {c : Char} (h : precedence? c = some p) : 0 < p := by
  rcases precedence?_cases h with ⟨-, rfl⟩ | ⟨-, rfl⟩ <;> decide

/-- Each entry has the precedence of its character. -/
theorem Layered.entries (h : Layered char stack) : ∀ e ∈ stack,
    char e.1 = '(' ∧ e.2 = 0 ∨ char e.1 ≠ '(' ∧ precedence? (char e.1) = some e.2 := by
  induction h with
  | empty => exact nofun
  | opening _ hopen ih => exact List.forall_mem_cons.2 ⟨.inl ⟨hopen, rfl⟩, ih⟩
  | operator _ hp _ ih =>
    exact List.forall_mem_cons.2 ⟨.inr ⟨(Shunting.ne_paren_of_precedence? hp).1, hp⟩, ih⟩

/-- No precedence is above two. -/
theorem Layered.lt_three (h : Layered char stack) : ∀ e ∈ stack, e.2 < 3 := by
  intro e he
  rcases h.entries e he with ⟨-, h0⟩ | ⟨-, hp⟩
  · omega
  · rcases precedence?_cases hp with ⟨-, h1⟩ | ⟨-, h2⟩ <;> omega

/-- What is no opening parenthesis is an operator. -/
theorem Layered.operators (h : Layered char (ops ++ stack)) (hops : ∀ e ∈ ops, char e.1 ≠ '(') :
    ∀ e ∈ ops, char e.1 ∈ ['+', '-'] ∧ e.2 = 1 ∨ char e.1 ∈ ['*', '/'] ∧ e.2 = 2 := by
  intro e he
  rcases h.entries e (List.mem_append_left _ he) with ⟨hopen, -⟩ | ⟨-, hp⟩
  · exact absurd hopen (hops e he)
  · exact precedence?_cases hp

/-- The uppermost entry may be taken off, -/
theorem Layered.of_cons {e : α × Nat} (h : Layered char (e :: stack)) : Layered char stack := by
  cases h with
  | opening h _ => exact h
  | operator h _ _ => exact h

/-- and so may more of them. -/
theorem Layered.of_append (h : Layered char (ops ++ stack)) : Layered char stack := by
  induction ops with
  | nil => exact h
  | cons e ops ih => exact ih h.of_cons

/-- **Within a layer** the precedences increase towards the top. -/
theorem Layered.pairwise (h : Layered char (ops ++ stack)) (hops : ∀ e ∈ ops, char e.1 ≠ '(') :
    ops.Pairwise fun upper lower => lower.2 < upper.2 := by
  induction ops with
  | nil => exact .nil
  | cons e ops ih =>
    obtain ⟨he, hrest⟩ := List.forall_mem_cons.1 hops
    cases h with
    | opening _ hopen => exact absurd hopen he
    | @operator _ a p h hp hhead =>
      have hpair := ih h hrest
      refine List.pairwise_cons.2 ⟨fun d hd => ?_, hpair⟩
      -- the next entry is below the new one, and the others are below that
      cases ops with
      | nil => cases hd
      | cons e' ops =>
        have hlt : e'.2 < p := hhead e' rfl
        rcases List.mem_cons.1 hd with rfl | hd
        · exact hlt
        · exact Nat.lt_trans (List.rel_of_pairwise_cons hpair hd) hlt

/-- Below a multiplicative operator a layer has at most one operator, an additive one. -/
theorem Layered.additive (h : Layered char (ops ++ stack)) (hops : ∀ e ∈ ops, char e.1 ≠ '(')
    (hhead : ∀ e ∈ ops.head?, e.2 < 2) :
    ops.length ≤ 1 ∧ ∀ e ∈ ops, char e.1 ∈ ['+', '-'] := by
  cases ops with
  | nil => exact ⟨Nat.zero_le _, nofun⟩
  | cons e ops =>
    have hpair := h.pairwise hops
    have hlt := hhead e rfl
    rcases h.operators hops e List.mem_cons_self with ⟨he, h1⟩ | ⟨-, h2⟩
    · -- nothing binds less tightly than an additive operator
      have hnil : ops = [] := by
        refine List.eq_nil_iff_forall_not_mem.2 fun e' he' => ?_
        have hlt' := List.rel_of_pairwise_cons hpair he'
        have hmem := List.mem_cons_of_mem e he'
        rcases h.operators hops e' hmem with ⟨-, h1'⟩ | ⟨-, h2'⟩ <;> omega
      subst hnil
      exact ⟨Nat.le_refl _, List.forall_mem_singleton.2 he⟩
    · omega

/-- So a layer has at most one multiplicative operator, and below it at most one additive one. -/
theorem Layered.exists_append (h : Layered char (ops ++ stack))
    (hops : ∀ e ∈ ops, char e.1 ≠ '(') :
    ∃ upper lower, ops = upper ++ lower ∧ upper.length ≤ 1 ∧ lower.length ≤ 1 ∧
      (∀ e ∈ upper, char e.1 ∈ ['*', '/']) ∧ ∀ e ∈ lower, char e.1 ∈ ['+', '-'] := by
  cases ops with
  | nil => exact ⟨[], [], rfl, Nat.zero_le _, Nat.zero_le _, nofun, nofun⟩
  | cons e ops =>
    have hpair := h.pairwise hops
    rcases h.operators hops e List.mem_cons_self with ⟨-, h1⟩ | ⟨he, h2⟩
    · have hlower := h.additive hops fun d hd => by
        cases Option.mem_some_iff.1 hd
        omega
      exact ⟨[], e :: ops, rfl, Nat.zero_le _, hlower.1, nofun, hlower.2⟩
    · have hlower := Layered.additive h.of_cons (List.forall_mem_cons.1 hops).2 fun d hd => by
        have hlt := List.rel_of_pairwise_cons hpair (List.mem_of_mem_head? hd)
        omega
      exact ⟨[e], ops, rfl, Nat.le_refl _, hlower.1, List.forall_mem_singleton.2 he, hlower.2⟩

/-- The opening parentheses on a stack. -/
def openings (char : α → Char) (stack : List (α × Nat)) : List α :=
  (stack.filter fun e => char e.1 = '(').map Prod.fst

theorem openings_eq_nil (hops : ∀ e ∈ ops, char e.1 ≠ '(') : openings char ops = [] := by
  rw [openings, List.filter_eq_nil_iff.2 (by simpa using hops), List.map_nil]

theorem openings_append :
    openings char (ops ++ stack) = openings char ops ++ openings char stack := by
  rw [openings, List.filter_append, List.map_append]
  rfl

theorem openings_cons_of_open (ha : char a = '(') :
    openings char ((a, p) :: stack) = a :: openings char stack := by
  simp [openings, ha]

theorem openings_cons_of_ne (ha : char a ≠ '(') :
    openings char ((a, p) :: stack) = openings char stack := by
  simp [openings, ha]

/-- The height of a stack whose uppermost entry has a precedence below `p`. -/
theorem Layered.length_lt (h : Layered char stack) (hp : 0 < p)
    (hhead : ∀ e ∈ stack.head?, e.2 < p) :
    stack.length < 3 * (openings char stack).length + p := by
  induction h generalizing p with
  | empty => exact Nat.lt_of_lt_of_le hp (Nat.le_add_left _ _)
  | opening hrest hopen ih =>
    have hlt := ih (p := 3) (by decide) fun e he => hrest.lt_three e (List.mem_of_mem_head? he)
    rw [openings_cons_of_open hopen, List.length_cons, List.length_cons]
    omega
  | @operator _ a q _ hq hhead' ih =>
    have hlt := ih (pos_of_precedence? hq) hhead'
    have hqp : q < p := hhead (a, q) rfl
    rw [openings_cons_of_ne (Shunting.ne_paren_of_precedence? hq).1, List.length_cons]
    omega

/-- **The height of a layered stack.** -/
theorem Layered.length_le (h : Layered char stack) :
    stack.length ≤ 3 * (openings char stack).length + 2 :=
  Nat.le_of_lt_succ (h.length_lt (p := 3) (by decide) fun e he =>
    h.lt_three e (List.mem_of_mem_head? he))

/-! ## Moves -/

/-- The output, once the entries `ops` are taken off the stack one after another and written. -/
def written (ops : List (α × Nat)) (output : List α) : List α :=
  (ops.map Prod.fst).reverse ++ output

/-- **The loop of a closing parenthesis** does not stop at operators. -/
theorem close_append (hops : ∀ e ∈ ops, char e.1 ≠ '(') (output : List α) :
    close char output (ops ++ below) = close char (written ops output) below := by
  induction ops generalizing output with
  | nil => rfl
  | cons e ops ih =>
    obtain ⟨he, hops⟩ := List.forall_mem_cons.1 hops
    rw [List.cons_append, close, if_neg he, ih hops]
    simp [written]

/-- A stack without an opening parenthesis, or one cut at the uppermost. -/
theorem exists_uppermost (char : α → Char) (stack : List (α × Nat)) :
    ∃ ops, (∀ e ∈ ops, char e.1 ≠ '(') ∧
      (stack = ops ∨ ∃ a p below, stack = ops ++ (a, p) :: below ∧ char a = '(') := by
  induction stack with
  | nil => exact ⟨[], nofun, .inl rfl⟩
  | cons e stack ih =>
    by_cases he : char e.1 = '('
    · exact ⟨[], nofun, .inr ⟨e.1, e.2, stack, rfl, he⟩⟩
    · obtain ⟨ops, hops, rfl | ⟨a, p, below, rfl, ha⟩⟩ := ih
      · exact ⟨e :: stack, List.forall_mem_cons.2 ⟨he, hops⟩, .inl rfl⟩
      · exact ⟨e :: ops, List.forall_mem_cons.2 ⟨he, hops⟩, .inr ⟨a, p, below, rfl, ha⟩⟩

/-- **The loop of an operator** stops at what binds less tightly. -/
theorem exists_unwind (p : Nat) (output : List α) (stack : List (α × Nat)) :
    ∃ ops below, stack = ops ++ below ∧ (∀ e ∈ ops, p ≤ e.2) ∧ (∀ e ∈ below.head?, e.2 < p) ∧
      unwind p output stack = ⟨written ops output, below⟩ := by
  induction stack generalizing output with
  | nil => exact ⟨[], [], rfl, nofun, nofun, rfl⟩
  | cons e stack ih =>
    by_cases hlt : e.2 < p
    · refine ⟨[], e :: stack, rfl, nofun, fun d hd => ?_, if_pos hlt⟩
      cases Option.mem_some_iff.1 hd
      exact hlt
    · obtain ⟨ops, below, rfl, hops, hhead, hunwind⟩ := ih (e.1 :: output)
      refine ⟨e :: ops, below, rfl, List.forall_mem_cons.2 ⟨Nat.le_of_not_lt hlt, hops⟩, hhead, ?_⟩
      rw [unwind, if_neg hlt, hunwind]
      simp [written]

/-- On a layered stack the loop may as well be entered always: where it is not, it would stop at
once. -/
theorem makeRoom_eq_unwind {y : Yard α} {c : Char} (h : Layered char y.stack) (hc : c ≠ '(')
    (hp : 0 < p) : y.makeRoom char c p = unwind p y.output y.stack := by
  obtain ⟨output, stack⟩ := y
  cases stack with
  | nil => rfl
  | cons e stack =>
    rw [makeRoom_cons]
    split
    · rename_i hguard
      have hlt : e.2 < p := by
        rcases hguard with hc' | hopen | hlt
        · exact absurd hc' hc
        · rcases h.entries e List.mem_cons_self with ⟨-, h0⟩ | ⟨hne, -⟩
          · exact h0 ▸ hp
          · exact absurd hopen hne
        · exact hlt
      exact (if_pos hlt).symm
    · rfl

/-- **What taking in `a` does.** The entries `ops` are taken off and written. -/
inductive Move (char : α → Char) : Yard α → α → Yard α → Prop
  | copy {output : List α} {stack : List (α × Nat)} {a : α} : char a ∉ marks →
      Move char ⟨output, stack⟩ a ⟨a :: output, stack⟩
  | opening {output : List α} {stack : List (α × Nat)} {a : α} : char a = '(' →
      Move char ⟨output, stack⟩ a ⟨output, (a, 0) :: stack⟩
  /-- A closing parenthesis and the opening one that it drops. -/
  | closing {output : List α} {ops below : List (α × Nat)} {a b : α} {p : Nat} : char a = ')' →
      (∀ e ∈ ops, char e.1 ≠ '(') → char b = '(' →
      Move char ⟨output, ops ++ (b, p) :: below⟩ a ⟨written ops output, below⟩
  /-- A closing parenthesis that has none to close. -/
  | stray {output : List α} {ops : List (α × Nat)} {a : α} : char a = ')' →
      (∀ e ∈ ops, char e.1 ≠ '(') → Move char ⟨output, ops⟩ a ⟨written ops output, []⟩
  | operator {output : List α} {ops below : List (α × Nat)} {a : α} {p : Nat} :
      precedence? (char a) = some p → (∀ e ∈ ops, p ≤ e.2) → (∀ e ∈ below.head?, e.2 < p) →
      Move char ⟨output, ops ++ below⟩ a ⟨written ops output, (a, p) :: below⟩

/-- **Every step on a layered stack is such a move.** -/
theorem move_step {y : Yard α} (h : Layered char y.stack) (a : α) :
    Move char y a (y.step char a) := by
  obtain ⟨output, stack⟩ := y
  rw [step]
  by_cases hclose : char a = ')'
  · rw [if_pos hclose]
    obtain ⟨ops, hops, rfl | ⟨b, p, below, rfl, hb⟩⟩ := exists_uppermost char stack
    · have hstray : close char output (stack ++ []) = ⟨written stack output, []⟩ :=
        close_append hops output
      rw [List.append_nil] at hstray
      rw [hstray]
      exact .stray hclose hops
    · rw [close_append hops, close, if_pos hb]
      exact .closing hclose hops hb
  rw [if_neg hclose]
  by_cases hopen : char a = '('
  · have hroom : makeRoom char ⟨output, stack⟩ (char a) 0 = ⟨output, stack⟩ := by
      cases stack with
      | nil => rfl
      | cons e stack => rw [makeRoom_cons, if_pos (.inl hopen)]
    simp only [rank?, if_pos hopen, hroom]
    exact .opening hopen
  simp only [rank?, if_neg hopen]
  cases hp : precedence? (char a) with
  | none => exact .copy (Shunting.not_mem_marks_of_precedence? hopen hclose hp)
  | some p =>
    obtain ⟨ops, below, rfl, hops, hhead, hunwind⟩ := exists_unwind p output stack
    have hroom := makeRoom_eq_unwind h hopen (pos_of_precedence? hp)
    simp only [hroom, hunwind]
    exact .operator hp hops hhead

/-- The operators that an operator lets out are no opening parentheses. -/
theorem Layered.ne_open_of_le (h : Layered char (ops ++ below)) (hp : 0 < p)
    (hops : ∀ e ∈ ops, p ≤ e.2) : ∀ e ∈ ops, char e.1 ≠ '(' := by
  intro e he
  rcases h.entries e (List.mem_append_left _ he) with ⟨-, h0⟩ | ⟨hne, -⟩
  · have hle := hops e he
    omega
  · exact hne

/-- **A move keeps the layers.** -/
theorem Layered.move {y y' : Yard α} (h : Layered char y.stack) (hmove : Move char y a y') :
    Layered char y'.stack := by
  cases hmove with
  | copy => exact h
  | opening hopen => exact h.opening hopen
  | closing => exact (Layered.of_append h).of_cons
  | stray => exact .empty
  | operator hp _ hhead => exact h.of_append.operator hp hhead

/-- An entry is new or has been there. -/
theorem Move.mem_stack {y y' : Yard α} (hmove : Move char y a y') :
    ∀ e ∈ y'.stack, e.1 = a ∨ e ∈ y.stack := by
  intro e he
  cases hmove with
  | copy => exact .inr he
  | opening => exact (List.mem_cons.1 he).imp (congrArg Prod.fst) id
  | closing => exact .inr (List.mem_append_right _ (List.mem_cons_of_mem _ he))
  | stray => cases he
  | operator =>
    exact (List.mem_cons.1 he).imp (congrArg Prod.fst) (List.mem_append_right _)

/-- **A move matches parentheses**: the places of the opening ones are those without a partner. -/
theorem openings_move {y y' : Yard (Char × Nat)} {a : Char × Nat} (h : Layered Prod.fst y.stack)
    (hmove : Move Prod.fst y a y') :
    (openings Prod.fst y'.stack).map Prod.snd =
      matchNext ((openings Prod.fst y.stack).map Prod.snd) a := by
  rw [matchNext]
  cases hmove with
  | copy ha =>
    obtain ⟨hopen, hclose⟩ := Shunting.ne_paren_of_not_mark ha
    rw [if_neg hopen, if_neg hclose]
  | opening hopen => rw [if_pos hopen, openings_cons_of_open hopen, List.map_cons]
  | closing hclose hops hb =>
    rw [if_neg (by simp [hclose]), if_pos hclose, openings_append, openings_eq_nil hops,
      List.nil_append, openings_cons_of_open hb, List.map_cons, List.tail_cons]
  | stray hclose hops =>
    rw [if_neg (by simp [hclose]), if_pos hclose, openings_eq_nil hops]
    rfl
  | operator hp hops =>
    obtain ⟨hopen, hclose⟩ := Shunting.ne_paren_of_precedence? hp
    rw [if_neg hopen, if_neg hclose, openings_cons_of_ne hopen, openings_append,
      openings_eq_nil (Layered.ne_open_of_le h (pos_of_precedence? hp) hops), List.nil_append]

/-! ## A run -/

/-- **The stack is always layered.** -/
theorem layered_run (char : α → Char) (as : List α) : Layered char (start.run char as).stack := by
  induction as using List.reverseRecOn with
  | nil => exact .empty
  | append_singleton as a ih =>
    rw [run_append]
    exact ih.move (move_step ih a)

/-- What stands on the stack has been read. -/
theorem mem_of_mem_stack_run (as : List α) : ∀ e ∈ (start.run char as).stack, e.1 ∈ as := by
  induction as using List.reverseRecOn with
  | nil => exact nofun
  | append_singleton as a ih =>
    intro e he
    rw [run_append] at he
    rcases (move_step (layered_run char as) a).mem_stack e he with rfl | he
    · exact List.mem_concat_self
    · exact List.mem_append_left _ (ih e he)

/-- **The opening parentheses on the stack** are those without a partner. -/
theorem openings_run (t : Text) :
    (openings Prod.fst (start.run Prod.fst t.zipIdx).stack).map Prod.snd = unmatched t := by
  rw [unmatched]
  induction t.zipIdx using List.reverseRecOn with
  | nil => rfl
  | append_singleton as a ih =>
    rw [List.foldl_concat, ← ih, run_append]
    have hlayered := layered_run Prod.fst as
    exact openings_move hlayered (move_step hlayered a)

/-! ## The postfix order -/

/-- The yard without the precedences. -/
def toShunting (y : Yard Char) : Shunting := ⟨y.output, y.stack.map Prod.fst⟩

/-- The precedence of an entry is what its character is asked for. -/
theorem Layered.bindsAtLeast_eq (h : Layered char stack) (hp : 0 < p) :
    ∀ e ∈ stack, bindsAtLeast p (char e.1) = decide (p ≤ e.2) := by
  intro e he
  rcases h.entries e he with ⟨hopen, h0⟩ | ⟨-, hprec⟩
  · rw [hopen, h0, decide_eq_false (Nat.not_le_of_lt hp)]
    rfl
  · rw [bindsAtLeast, hprec]
    rfl

/-- **A move without the precedences** is a step of the pass to postfix order. -/
theorem toShunting_move {y y' : Yard Char} {c : Char} (h : Layered id y.stack)
    (hmove : Move id y c y') : y.toShunting.step c = y'.toShunting := by
  cases hmove with
  | copy hc => exact Shunting.step_of_not_mark hc
  | opening hopen =>
    cases hopen
    rfl
  | @closing _ ops below _ b p hclose hops hb =>
    cases hclose
    cases hb
    have hne : ∀ d ∈ ops.map Prod.fst, d ≠ '(' := List.forall_mem_map.2 hops
    simp only [toShunting, List.map_append, List.map_cons, written]
    exact Shunting.step_close hne
  | @stray _ ops _ hclose hops =>
    cases hclose
    exact Shunting.step_stray (List.forall_mem_map.2 hops)
  | @operator output ops below _ p hp hops hhead =>
    have hbinds := Layered.bindsAtLeast_eq h (pos_of_precedence? hp)
    have hgo : ∀ d ∈ ops.map Prod.fst, bindsAtLeast p d = true :=
      List.forall_mem_map.2 fun e he =>
        (hbinds e (List.mem_append_left _ he)).trans (decide_eq_true (hops e he))
    have hstop : ∀ d ∈ (below.map Prod.fst).head?, bindsAtLeast p d = false := by
      intro d hd
      rw [List.head?_map] at hd
      obtain ⟨e, he, rfl⟩ := Option.map_eq_some_iff.1 hd
      have hmem := List.mem_append_right ops (List.mem_of_mem_head? he)
      exact (hbinds e hmem).trans (decide_eq_false (Nat.not_le_of_lt (hhead e he)))
    simp only [toShunting, List.map_append, List.map_cons, written]
    exact Shunting.step_operator hp hgo hstop

/-- **A yard goes along with the pass to postfix order.** -/
theorem toShunting_run (t : Text) : t.foldl Shunting.step .start = (start.run id t).toShunting := by
  induction t using List.reverseRecOn with
  | nil => rfl
  | append_singleton t c ih =>
    have hlayered := layered_run id t
    rw [List.foldl_concat, ih, run_append]
    exact toShunting_move hlayered (move_step hlayered c)

/-- So what it has written in the end is the postfix order. -/
theorem toPostfix_eq_finish (t : Text) : toPostfix t = (start.run id t).finish := by
  rw [toPostfix, toShunting_run]
  rfl

/-! ## The stack behind a text -/

/-- **How a stack stands behind the text `t`**, if its entries are characters with their places and
are given last one first. -/
structure StandsBehind (t : Text) (stack : List ((Char × Nat) × Nat)) : Prop where
  /-- An entry is a character of the text. An opening parenthesis has the precedence 0, and all else
  are operators, with the precedence of the table. -/
  entries : ∀ e ∈ stack, e.1 ∈ t.zipIdx ∧
    (e.1.1 = '(' ∧ e.2 = 0 ∨ e.1.1 ∈ ['+', '-', '*', '/'] ∧ precedence? e.1.1 = some e.2)
  /-- Between opening parentheses, below the first one and above the last one, the precedences
  increase towards the top. So there is at most one operator of each precedence. -/
  layers : ∀ above layer below, stack = above ++ layer ++ below → (∀ e ∈ layer, e.1.1 ≠ '(') →
    (layer.Pairwise fun upper lower => lower.2 < upper.2) ∧
      ∃ upper lower, layer = upper ++ lower ∧ upper.length ≤ 1 ∧ lower.length ≤ 1 ∧
        (∀ e ∈ upper, e.1.1 ∈ ['*', '/']) ∧ ∀ e ∈ lower, e.1.1 ∈ ['+', '-']
  /-- The opening parentheses are those of the text that have no partner so far, in order. -/
  openings : (stack.filter fun e => e.1.1 = '(').map (fun e => e.1.2) = unmatched t
  length_le : stack.length ≤ 3 * (unmatched t).length + 2

theorem standsBehind_run (t : Text) : StandsBehind t (start.run Prod.fst t.zipIdx).stack where
  entries e he := by
    have hlayered := layered_run Prod.fst t.zipIdx
    refine ⟨mem_of_mem_stack_run _ e he, (hlayered.entries e he).imp_right fun ⟨_, hp⟩ => ⟨?_, hp⟩⟩
    exact Shunting.mem_operators_of_precedence? hp
  layers above layer below hstack hlayer := by
    have hlayered := layered_run Prod.fst t.zipIdx
    rw [hstack, List.append_assoc] at hlayered
    exact ⟨hlayered.of_append.pairwise hlayer, hlayered.of_append.exists_append hlayer⟩
  openings := by
    rw [← openings_run t, openings, List.map_map]
    rfl
  length_le := by
    have hlayered := layered_run Prod.fst t.zipIdx
    rw [← openings_run t, List.length_map]
    exact hlayered.length_le

/-- **How the stack stands between any two parts of a text.** A yard that has shunted the first part
waits with what the pass to postfix order waits with, and once it has gone on with the second part
it has the postfix order of the text. Its characters may be marked with their places, which changes
nothing else; then its stack stands as it should behind the first part. -/
theorem standsBehind_between (front back : Text) :
    toPostfix (front ++ back) = ((start.run id front).run id back).finish ∧
      front.foldl Shunting.step .start = (start.run id front).toShunting ∧
      (start.run Prod.fst front.zipIdx).map Prod.fst = start.run id front ∧
      StandsBehind front (start.run Prod.fst front.zipIdx).stack := by
  refine ⟨?_, toShunting_run front, ?_, standsBehind_run front⟩
  · rw [toPostfix_eq_finish, run_append]
  · have hmap := map_run id Prod.fst start front.zipIdx
    rw [List.zipIdx_map_fst] at hmap
    exact hmap

/-- Every layer is full: two opening parentheses and eight entries. -/
example : (start.run id "+*(-/(+*".toList).stack =
    [('*', 2), ('+', 1), ('(', 0), ('/', 2), ('-', 1), ('(', 0), ('*', 2), ('+', 1)] := by
  decide

end Yard

end Lox
