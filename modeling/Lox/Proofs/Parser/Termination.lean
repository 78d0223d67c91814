import Lox.Proofs.Parser.Rounds
import Mathlib.Data.Prod.Lex
import Mathlib.Data.List.Chain
/-!
# Why the descent ends

The routines of a parser call each other, in a circle: an expression is read
level by level down to a literal or a parenthesis, and behind a parenthesis an
expression is read. Here a routine is what its body says, with the calls left
open, so that a call that does not end has no result. Every call a body makes
has fewer tokens ahead of it than the routine itself, or as many and a tighter
level; so calls cannot be nested without end, and what the routine gives is
what the parser gives.
-/


namespace Lox

namespace Parser

/-- A routine of the descent. A loop is one of its own: it goes on behind an operand. -/
inductive Routine
  | expression
  | level (l : Level)
  | chain (l : Level) (left : Expr)
  | primary

namespace Routine

/-- What the parser does when the routine is called. -/
def run : Routine → Parser → Item × Parser
  | expression, p => p.expression.result
  | level l, p => (Parser.level l p).result
  | chain l left, p => (Parser.chain l left p).result
  | primary, p => (Parser.primary p).result

section

variable {m : Type → Type} [Monad m]

/-- Goes on with the tree of a call, where there is one. -/
def goOn (f : Expr → Parser → m (Item × Parser)) : Item × Parser → m (Item × Parser)
  | (.ok e, q) => f e q
  | (.error error, q) => return (.error error, q)

/-- **What a routine does**, where `call` calls a routine. -/
def body (call : Routine → Parser → m (Item × Parser)) : Routine → Parser → m (Item × Parser)
  | expression, p => call (level .comma) p
  | level l, p =>
    if l = .unary then
      match p.matchAny? [.bang, .minus] with
      | some (operator, q) =>
        call (level .unary) q >>= goOn fun e r => return (.ok (.unary operator e), r)
      | none => call primary p
    else
      call (level l.operand) p >>= goOn fun left q => call (chain l left) q
  | chain l left, p =>
    match p.matchAny? l.operators with
    | none => return (.ok left, p)
    | some (operator, q) =>
      call (level l.operand) q >>=
        goOn fun right r => call (chain l (.binary left operator right)) r
  | primary, p =>
    match p.peek.data.literal? with
    | some v => return (.ok (.literal v), p.next)
    | none =>
      if p.peek.isSymbol .leftParen then
        call expression p.next >>= goOn fun e q =>
          match q.consume .rightParen .rightParen with
          | .error error => return (.error error, q)
          | .ok (_, r) => return (.ok (.group e), r)
      else
        return (.error (.atToken .expression p.peek), p)

end

/-- What a routine gives if calls are nested less than `n` deep; nothing if they are not. -/
def within : (n : Nat) → Routine → Parser → Option (Item × Parser)
  | 0 => fun _ _ => none
  | n + 1 => body (within n)

/-- A call that is answered and put down. -/
def noted (r : Routine) (p : Parser) : StateM (List (Routine × Parser)) (Item × Parser) := do
  modify (· ++ [(r, p)])
  return r.run p

/-- The calls that a routine makes itself, first one first. -/
def calls (r : Routine) (p : Parser) : List (Routine × Parser) := ((body noted r p).run []).2

/-- How loose a routine is. -/
def rank : Routine → Nat
  | expression => 7
  | level l => l.rank + 1
  | chain _ _ => 0
  | primary => 0

/-- **The measure of a call**: the tokens ahead, then the level. -/
def measure (r : Routine) (p : Parser) : ℕ ×ₗ ℕ := toLex (p.left, r.rank)

theorem rank_le (r : Routine) : r.rank ≤ 7 := by
  cases r with
  | expression => exact Nat.le_refl _
  | level l => exact Nat.succ_le_succ (Nat.le_succ_of_le l.rank_le)
  | chain | primary => exact Nat.zero_le _

variable {p q : Parser} {r : Routine}

theorem measure_lt_iff {r' : Routine} :
    r'.measure q < r.measure p ↔ q.left < p.left ∨ q.left = p.left ∧ r'.rank < r.rank :=
  Prod.Lex.toLex_lt_toLex

/-! ## What each routine gives -/

theorem run_level_unary (p : Parser) : (level .unary).run p =
    match p.matchAny? [.bang, .minus] with
    | some (operator, q) =>
      andThen ((level .unary).run q) fun e r => (.ok (.unary operator e), r)
    | none => primary.run p :=
  result_level_unary p

theorem run_level {l : Level} (hl : l ≠ .unary) (p : Parser) : (level l).run p =
    andThen ((level l.operand).run p) fun left q => (chain l left).run q :=
  result_level hl p

theorem run_chain (l : Level) (left : Expr) (p : Parser) : (chain l left).run p =
    match p.matchAny? l.operators with
    | none => (.ok left, p)
    | some (operator, q) =>
      andThen ((level l.operand).run q) fun right r =>
        (chain l (.binary left operator right)).run r :=
  result_chain l left p

theorem run_primary (p : Parser) : primary.run p =
    match p.peek.data.literal? with
    | some v => (.ok (.literal v), p.next)
    | none =>
      if p.peek.isSymbol .leftParen then
        andThen (expression.run p.next) fun e q =>
          match q.consume .rightParen .rightParen with
          | .error error => (.error error, q)
          | .ok (_, r) => (.ok (.group e), r)
      else (.error (.atToken .expression p.peek), p) :=
  result_primary p

/-! ## The calls of each routine -/

/-- The first call of a body is noted, and then those that follow it. -/
theorem run_noted_bind (r : Routine) (p : Parser) {f : Item × Parser → StateM _ (Item × Parser)}
    (cs : List (Routine × Parser)) :
    (noted r p >>= f).run cs = (f (r.run p)).run (cs ++ [(r, p)]) := rfl

theorem calls_expression (p : Parser) : calls expression p = [(level .comma, p)] := rfl

theorem calls_level_unary (p : Parser) : calls (level .unary) p =
    match p.matchAny? [.bang, .minus] with
    | some (_, q) => [(level .unary, q)]
    | none => [(primary, p)] := by
  rw [calls, body, if_pos rfl]
  cases p.matchAny? [.bang, .minus] with
  | none => rfl
  | some o =>
    simp only [run_noted_bind]
    rcases (level .unary).run o.2 with ⟨_ | _, _⟩ <;> rfl

theorem calls_level {l : Level} (hl : l ≠ .unary) (p : Parser) : calls (level l) p =
    (level l.operand, p) ::
      match (level l.operand).run p with
      | (.ok left, q) => [(chain l left, q)]
      | (.error _, _) => [] := by
  rw [calls, body, if_neg hl, run_noted_bind]
  rcases (level l.operand).run p with ⟨_ | _, _⟩ <;> rfl

theorem calls_chain (l : Level) (left : Expr) (p : Parser) : calls (chain l left) p =
    match p.matchAny? l.operators with
    | none => []
    | some (operator, q) =>
      (level l.operand, q) ::
        match (level l.operand).run q with
        | (.ok right, r) => [(chain l (.binary left operator right), r)]
        | (.error _, _) => [] := by
  rw [calls, body]
  cases p.matchAny? l.operators with
  | none => rfl
  | some o =>
    simp only [run_noted_bind]
    rcases (level l.operand).run o.2 with ⟨_ | _, _⟩ <;> rfl

theorem calls_primary (p : Parser) : calls primary p =
    match p.peek.data.literal? with
    | some _ => []
    | none => if p.peek.isSymbol .leftParen then [(expression, p.next)] else [] := by
  rw [calls, body]
  cases p.peek.data.literal? with
  | some v => rfl
  | none =>
    by_cases hparen : p.peek.isSymbol .leftParen = true
    · simp only [if_pos hparen, run_noted_bind]
      rcases expression.run p.next with ⟨_ | e, q⟩
      · rfl
      · simp only [goOn]
        cases q.consume .rightParen .rightParen <;> rfl
    · simp only [if_neg hparen]
      rfl

section

variable {m : Type → Type} [Monad m]

/-- Going on, where what follows comes to what the parser does. -/
theorem goOn_eq_pure {f : Expr → Parser → m (Item × Parser)} {g : Expr → Parser → Item × Parser}
    {o : Item × Parser} (h : ∀ e q, o = (.ok e, q) → f e q = pure (g e q)) :
    goOn f o = pure (andThen o g) := by
  obtain ⟨error | e, q⟩ := o
  · rfl
  · exact h e q rfl

/-- **The parser does what the bodies say**: a body whose calls give what the parser gives comes to
what the parser gives, whatever further calls would give. -/
theorem body_eq_pure [LawfulMonad m] {call : Routine → Parser → m (Item × Parser)}
    (h : ∀ c ∈ calls r p, call c.1 c.2 = pure (c.1.run c.2)) :
    body call r p = pure (r.run p) := by
  cases r with
  | expression => exact h _ List.mem_cons_self
  | level l =>
    by_cases hl : l = .unary
    · subst hl
      rw [calls_level_unary] at h
      rw [body, if_pos rfl, run_level_unary]
      cases hm : p.matchAny? [.bang, .minus] with
      | none =>
        rw [hm] at h
        exact h _ List.mem_cons_self
      | some o =>
        rw [hm] at h
        simp only [h (level .unary, o.2) List.mem_cons_self, pure_bind]
        exact goOn_eq_pure fun e q _ => rfl
    · rw [calls_level hl] at h
      obtain ⟨hoperand, hchain⟩ := List.forall_mem_cons.1 h
      rw [body, if_neg hl, hoperand, pure_bind, run_level hl]
      refine goOn_eq_pure fun left q hleft => ?_
      rw [hleft] at hchain
      exact hchain _ List.mem_cons_self
  | chain l left =>
    rw [calls_chain] at h
    rw [body, run_chain]
    cases hm : p.matchAny? l.operators with
    | none => rfl
    | some o =>
      rw [hm] at h
      obtain ⟨hoperand, hchain⟩ := List.forall_mem_cons.1 h
      simp only [hoperand, pure_bind]
      refine goOn_eq_pure fun right q hright => ?_
      rw [hright] at hchain
      exact hchain _ List.mem_cons_self
  | primary =>
    rw [calls_primary] at h
    rw [body, run_primary]
    cases hv : p.peek.data.literal? with
    | some v => rfl
    | none =>
      rw [hv] at h
      by_cases ho : p.peek.isSymbol .leftParen = true
      · simp only [if_pos ho] at h ⊢
        rw [h _ List.mem_cons_self, pure_bind]
        refine goOn_eq_pure fun e q _ => ?_
        cases q.consume .rightParen .rightParen <;> rfl
      · simp only [if_neg ho]

end

/-! ## Each call is smaller -/

/-- A routine that succeeds has passed a token, unless it is a loop. -/
theorem left_run_lt {e : Expr} (h : r.run p = (.ok e, q)) :
    q.left < p.left + 1 ∧ ((∀ l left, r ≠ chain l left) → q.left < p.left) := by
  have hlt : ∀ {n : Nat} {o : Outcome n}, o.result = (.ok e, q) → q.left < n := by
    rintro n (⟨e', q', lt⟩ | ⟨error, q', le⟩) ho
    · cases ho
      exact lt
    · cases ho
  cases r with
  | chain l left => exact ⟨hlt h, fun hr => absurd rfl (hr l left)⟩
  | expression | level | primary => exact ⟨Nat.lt_succ_of_lt (hlt h), fun _ => hlt h⟩

/-- **Every call has a smaller measure** than the routine that makes it. -/
theorem measure_lt_of_mem_calls {c : Routine × Parser} (h : c ∈ calls r p) :
    c.1.measure c.2 < r.measure p := by
  rw [measure_lt_iff]
  cases r with
  | expression =>
    rw [calls_expression, List.mem_singleton] at h
    subst h
    exact .inr ⟨rfl, Nat.lt_succ_self _⟩
  | level l =>
    by_cases hl : l = .unary
    · subst hl
      rw [calls_level_unary] at h
      cases hm : p.matchAny? [.bang, .minus] with
      | none =>
        rw [hm, List.mem_singleton] at h
        subst h
        exact .inr ⟨rfl, Nat.lt_succ_self _⟩
      | some o =>
        have hleft := left_of_matchAny? hm
        rw [hm, List.mem_singleton] at h
        subst h
        exact .inl (by simp only; omega)
    · rw [calls_level hl] at h
      rcases List.mem_cons.1 h with rfl | h
      · exact .inr ⟨rfl, Nat.succ_lt_succ (Level.rank_operand_lt hl)⟩
      · rcases hrun : (level l.operand).run p with ⟨error | left, q⟩
        · rw [hrun] at h
          cases h
        · rw [hrun, List.mem_singleton] at h
          subst h
          exact .inl ((left_run_lt hrun).2 (by simp))
  | chain l left =>
    rw [calls_chain] at h
    cases hm : p.matchAny? l.operators with
    | none =>
      rw [hm] at h
      cases h
    | some o =>
      have hleft := left_of_matchAny? hm
      rw [hm] at h
      rcases List.mem_cons.1 h with rfl | h
      · exact .inl (by simp only; omega)
      · rcases hrun : (level l.operand).run o.2 with ⟨error | right, q⟩
        · rw [hrun] at h
          cases h
        · rw [hrun, List.mem_singleton] at h
          subst h
          have hlt := (left_run_lt hrun).1
          exact .inl (by simp only; omega)
  | primary =>
    rw [calls_primary] at h
    cases hv : p.peek.data.literal? with
    | some v =>
      rw [hv] at h
      cases h
    | none =>
      rw [hv] at h
      by_cases ho : p.peek.isSymbol .leftParen = true
      · have hleft := left_next (not_isAtEnd_of_isSymbol ho)
        simp only [if_pos ho, List.mem_singleton] at h
        subst h
        exact .inl (by simp only; omega)
      · simp only [if_neg ho] at h
        cases h

/-- **Calls are not nested without end**: nested as deep as the measure allows, a routine gives what
the parser gives. -/
theorem within_eq_some {n : Nat} (h : 8 * p.left + r.rank < n) : within n r p = some (r.run p) := by
  induction n generalizing r p with
  | zero => omega
  | succ n ih =>
    refine body_eq_pure fun c hc => ih ?_
    have hlt := measure_lt_iff.1 (measure_lt_of_mem_calls hc)
    have hrank := c.1.rank_le
    omega

/-! ## Where a routine leaves the parser -/

/-- **A routine passes some of the tokens ahead**, and an error is about the token behind them. -/
theorem reaches_run (r : Routine) (p : Parser) :
    p.Reaches (r.run p).2.ahead (r.run p).2 ∧
      ∀ error, (r.run p).1 = .error error → ∃ x, error = .atToken x (r.run p).2.peek := by
  have hfollows : ∀ result, p.Follows result (r.run p) →
      p.Reaches (r.run p).2.ahead (r.run p).2 ∧
        ∀ error, (r.run p).1 = .error error → ∃ x, error = .atToken x (r.run p).2.peek := by
    intro result h
    generalize r.run p = o at h
    cases h with
    | done hq => exact ⟨hq.ahead.symm ▸ hq, fun error herror => by cases herror⟩
    | stuck hq =>
      exact ⟨hq.ahead.symm ▸ hq, fun error herror => ⟨_, (Except.error.inj herror).symm⟩⟩
  have hdescent : ∀ task : Task, p.Follows (task.run p.ahead) (p.perform task) := fun task =>
    follows_of_descent (Descent.iff_run_eq.2 rfl) rfl
  cases r with
  | expression => exact hfollows _ p.follows_expression
  | level l => exact hfollows _ (hdescent (.level l))
  | chain l left => exact hfollows _ (hdescent (.chain l left))
  | primary => exact hfollows _ (hdescent .primary)

/-! ## The descent -/

/-- The routines from the loosest one to the tightest one. -/
def spine : List Routine :=
  [expression, level .comma, level .equality, level .comparison, level .term, level .factor,
    level .unary, primary]

/-- **Seven calls are nested at one place** if no unary operator is there. -/
theorem isChain_spine (h : p.matchAny? [.bang, .minus] = none) :
    spine.IsChain fun r r' => (r', p) ∈ calls r p := by
  have hlevel : ∀ l, l ≠ Level.unary → (level l.operand, p) ∈ calls (level l) p := fun l hl => by
    rw [calls_level hl]
    exact List.mem_cons_self
  have hprimary : (primary, p) ∈ calls (level .unary) p := by
    rw [calls_level_unary, h]
    exact List.mem_cons_self
  have hexpression : (level .comma, p) ∈ calls expression p := List.mem_cons_self
  simp only [spine, List.isChain_cons_cons, List.isChain_singleton, and_true]
  exact ⟨hexpression, hlevel .comma (by decide), hlevel .equality (by decide),
    hlevel .comparison (by decide), hlevel .term (by decide), hlevel .factor (by decide), hprimary⟩

/-- Behind a parenthesis the circle is closed. -/
theorem calls_primary_of_leftParen (h : p.peek.isSymbol .leftParen = true) :
    calls primary p = [(expression, p.next)] := by
  rw [calls_primary, Descent.literal?_eq_none_of_leftParen h]
  exact if_pos h

end Routine

open Routine

/-- **What holds of the descent** from the place of a parser. -/
structure DescentEnds (p : Parser) : Prop where
  /-- Every routine ends: calls are nested only so deep, and then it gives what the parser gives. -/
  returns (r : Routine) {n : Nat} : 8 * p.left + r.rank < n → within n r p = some (r.run p)
  /-- Every call that a routine makes has fewer tokens ahead, or as many and a tighter level. -/
  measure_lt (r : Routine) : ∀ c ∈ calls r p, c.1.measure c.2 < r.measure p
  tokens_eq (r : Routine) : (r.run p).2.tokens = p.tokens
  /-- The parser does not go back. -/
  current_le (r : Routine) : p.current ≤ (r.run p).2.current
  /-- Nor does it pass the end. -/
  current_le_endIndex (r : Routine) : (r.run p).2.current ≤ p.endIndex
  /-- The end is the first place ahead with an end marker, or the end of the list. -/
  isLeast_endIndex :
    IsLeast {k | p.current ≤ k ∧ (⟨p.tokens, k⟩ : Parser).isAtEnd = true} p.endIndex
  /-- A routine that succeeds has passed a token, unless it is a loop behind an operand. -/
  current_lt (r : Routine) (hr : ∀ l left, r ≠ .chain l left) :
    ∀ e, (r.run p).1 = .ok e → p.current < (r.run p).2.current
  /-- One that fails is left in front of the token that its error is about. -/
  error_eq (r : Routine) :
    ∀ error, (r.run p).1 = .error error → ∃ x, error = .atToken x (r.run p).2.peek
  /-- Yet from the loosest routine to the tightest one nothing need be passed. -/
  isChain_spine : p.matchAny? [.bang, .minus] = none →
    spine.IsChain fun r r' => (r', p) ∈ calls r p
  /-- And the tightest one calls the loosest one. -/
  calls_primary : p.peek.isSymbol .leftParen = true → calls .primary p = [(.expression, p.next)]

/-- **The descent ends and makes progress**, whatever the tokens are and wherever it starts. -/
theorem descentEnds (p : Parser) : DescentEnds p where
  returns _ _ := within_eq_some
  measure_lt _ _ := measure_lt_of_mem_calls
  tokens_eq r := (reaches_run r p).1.tokens_eq
  current_le r := (reaches_run r p).1.current_le
  current_le_endIndex r := by
    have hadd := (reaches_run r p).1.current_add
    rw [endIndex]
    omega
  isLeast_endIndex := p.isLeast_endIndex
  current_lt r hr e he := by
    have hadd := (reaches_run r p).1.current_add
    have hlt : (r.run p).2.left < p.left := (left_run_lt (Prod.ext he rfl)).2 hr
    have hleft : (r.run p).2.ahead.length = (r.run p).2.left := rfl
    omega
  error_eq r := (reaches_run r p).2
  isChain_spine := Routine.isChain_spine
  calls_primary := calls_primary_of_leftParen

/-- A parenthesis and what is in it are read by twice eight calls, one in the other. -/
example :
    let p := start (scan "(1)".toList).tokens
    (within 16 .expression p).map (·.2.current) = some 3 ∧ within 15 .expression p = none := by
  decide +kernel

end Parser

end Lox
