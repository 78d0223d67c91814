import Lox.Expr.Reading
/-!
# The descent, step by step

What the reader does on a token list, as a relation with one rule for each
way a call can go. The bounds that make the reader terminate are left out of
the outcome. The relation holds exactly of what the reader returns
(`Descent.iff_run_eq`), so an invariant of the reader is shown by induction on the
rules, and a run is built from them, with no unfolding of the reader.
-/


namespace Lox

namespace Reading

/-- What a reading comes to: the tree and the tokens behind it, or what was expected and the
tokens from the one that does not fit. -/
abbrev Result := Except (Expected × List Token) (Expr × List Token)

/-- The outcome without its bound. -/
def result {n : Nat} : Reading n → Result
  | done e rest _ => .ok (e, rest)
  | stuck x rest _ => .error (x, rest)

@[simp] theorem result_done {n : Nat} {e : Expr} {rest : List Token} {h : rest.length < n} :
    (done e rest h).result = .ok (e, rest) := rfl

@[simp] theorem result_stuck {n : Nat} {x : Expected} {rest : List Token} {h : rest.length ≤ n} :
    (stuck x rest h).result = .error (x, rest) := rfl

@[simp] theorem result_widen {m n : Nat} {h : m ≤ n} {r : Reading m} :
    (r.widen h).result = r.result := by
  cases r <;> rfl

/-- A reading that is done has a result to show for it. -/
theorem exists_of_result_ok {n : Nat} {r : Reading n} {e : Expr} {rest : List Token}
    (h : r.result = .ok (e, rest)) : ∃ lt, r = .done e rest lt := by
  cases r with
  | done e' rest' lt => cases h; exact ⟨lt, rfl⟩
  | stuck => cases h

/-- And one that is stuck has the place where it is. -/
theorem exists_of_result_error {n : Nat} {r : Reading n} {x : Expected} {rest : List Token}
    (h : r.result = .error (x, rest)) : ∃ le, r = .stuck x rest le := by
  cases r with
  | done => cases h
  | stuck x' rest' le => cases h; exact ⟨le, rfl⟩

end Reading

open Reading (Result)

/-- What the reader can be asked for. -/
inductive Task
  /-- An expression of a level. -/
  | level (l : Level)
  /-- The operators and operands of a level that follow `left`. -/
  | chain (l : Level) (left : Expr)
  /-- A literal or a grouping. -/
  | primary

/-- What the reader returns for a task. -/
def Task.run : Task → List Token → Result
  | .level l, ts => (readLevel l ts).result
  | .chain l left, ts => (readChain l left ts).result
  | .primary, [] => .error (.expression, [])
  | .primary, t :: rest => (readPrimary t rest).result

/-- **The rules of the descent.** -/
inductive Descent : Task → List Token → Result → Prop
  /-- Nothing is left where an operand should stand. -/
  | missing : Descent (.level .unary) [] (.error (.expression, []))
  | negated {t : Token} {ts rest : List Token} {e : Expr} :
      t.isUnaryOperator = true → Descent (.level .unary) ts (.ok (e, rest)) →
      Descent (.level .unary) (t :: ts) (.ok (.unary t e, rest))
  | negatedStuck {t : Token} {ts : List Token} {f : Expected × List Token} :
      t.isUnaryOperator = true → Descent (.level .unary) ts (.error f) →
      Descent (.level .unary) (t :: ts) (.error f)
  /-- Without an operator in front a unary expression is a primary one. -/
  | bare {t : Token} {ts : List Token} {r : Result} :
      ¬ t.isUnaryOperator = true → Descent .primary (t :: ts) r →
      Descent (.level .unary) (t :: ts) r
  /-- A level reads its first operand and goes on behind it. -/
  | operand {l : Level} {ts rest : List Token} {left : Expr} {r : Result} :
      l ≠ .unary → Descent (.level l.operand) ts (.ok (left, rest)) →
      Descent (.chain l left) rest r → Descent (.level l) ts r
  | operandStuck {l : Level} {ts : List Token} {f : Expected × List Token} :
      l ≠ .unary → Descent (.level l.operand) ts (.error f) → Descent (.level l) ts (.error f)
  /-- An operator of the level and its right operand are joined to what is read so far. -/
  | join {l : Level} {left right : Expr} {t : Token} {ts rest : List Token} {r : Result} :
      t.isOperatorOf l = true → Descent (.level l.operand) ts (.ok (right, rest)) →
      Descent (.chain l (.binary left t right)) rest r → Descent (.chain l left) (t :: ts) r
  | joinStuck {l : Level} {left : Expr} {t : Token} {ts : List Token}
      {f : Expected × List Token} :
      t.isOperatorOf l = true → Descent (.level l.operand) ts (.error f) →
      Descent (.chain l left) (t :: ts) (.error f)
  /-- Where no operator of the level follows, the expression ends. -/
  | chainEnd {l : Level} {left : Expr} : Descent (.chain l left) [] (.ok (left, []))
  | chainStop {l : Level} {left : Expr} {t : Token} {ts : List Token} :
      ¬ t.isOperatorOf l = true → Descent (.chain l left) (t :: ts) (.ok (left, t :: ts))
  | literal {t : Token} {ts : List Token} {v : Literal} :
      t.data.literal? = some v → Descent .primary (t :: ts) (.ok (.literal v, ts))
  | group {t closing : Token} {ts rest : List Token} {e : Expr} :
      t.isSymbol .leftParen = true → closing.isSymbol .rightParen = true →
      Descent (.level .comma) ts (.ok (e, closing :: rest)) →
      Descent .primary (t :: ts) (.ok (.group e, rest))
  | groupStuck {t : Token} {ts : List Token} {f : Expected × List Token} :
      t.isSymbol .leftParen = true → Descent (.level .comma) ts (.error f) →
      Descent .primary (t :: ts) (.error f)
  /-- The parenthesis is not closed where its expression ends. -/
  | unclosed {t : Token} {ts rest : List Token} {e : Expr} :
      t.isSymbol .leftParen = true → (∀ c ∈ rest.head?, ¬ c.isSymbol .rightParen = true) →
      Descent (.level .comma) ts (.ok (e, rest)) →
      Descent .primary (t :: ts) (.error (.rightParen, rest))
  /-- The token starts no expression. -/
  | unfit {t : Token} {ts : List Token} :
      t.data.literal? = none → ¬ t.isSymbol .leftParen = true →
      Descent .primary (t :: ts) (.error (.expression, t :: ts))
  /-- No operand is asked for where no token is left. -/
  | noPrimary : Descent .primary [] (.error (.expression, []))

namespace Descent

/-- Where no token is left no expression is found. -/
theorem level_nil (l : Level) : Descent (.level l) [] (.error (.expression, [])) := by
  by_cases hl : l = .unary
  · exact hl ▸ .missing
  · exact .operandStuck hl (level_nil l.operand)
termination_by l.rank
decreasing_by exact Level.rank_operand_lt hl

theorem literal?_eq_none_of_leftParen {t : Token} (h : t.isSymbol .leftParen = true) :
    t.data.literal? = none := by
  simp only [Token.isSymbol, beq_iff_eq] at h
  simp [h, TokenData.literal?]

/-- What the rules give is what the reader returns. -/
theorem run_eq {task : Task} {ts : List Token} {r : Result} (h : Descent task ts r) :
    task.run ts = r := by
  -- each rule is one branch of the reader, and says what the calls in that branch return
  induction h with
  | missing => simp [Task.run, readLevel]
  | negated ht _ ih =>
    obtain ⟨lt, h⟩ := Reading.exists_of_result_ok ih
    simp [Task.run, readLevel, ht, h, Reading.map, Reading.widen]
  | negatedStuck ht _ ih =>
    obtain ⟨le, h⟩ := Reading.exists_of_result_error ih
    simp [Task.run, readLevel, ht, h, Reading.map, Reading.widen]
  | bare ht _ ih =>
    rw [Task.run, readLevel]
    simpa [ht, Task.run] using ih
  | operand hl _ _ ih ihc =>
    obtain ⟨lt, h⟩ := Reading.exists_of_result_ok ih
    unfold Task.run readLevel
    simpa [hl, h, Task.run] using ihc
  | operandStuck hl _ ih =>
    obtain ⟨le, h⟩ := Reading.exists_of_result_error ih
    unfold Task.run readLevel
    simp [hl, h]
  | join ht _ _ ih ihc =>
    obtain ⟨lt, h⟩ := Reading.exists_of_result_ok ih
    rw [Task.run, readChain]
    simpa [ht, h, Task.run] using ihc
  | joinStuck ht _ ih =>
    obtain ⟨le, h⟩ := Reading.exists_of_result_error ih
    rw [Task.run, readChain]
    simp [ht, h]
  | chainEnd => simp [Task.run, readChain]
  | chainStop ht => simp [Task.run, readChain, ht]
  | literal hv =>
    rw [Task.run, readPrimary]
    split
    · simp_all
    · simp_all
  | group ht hc _ ih =>
    obtain ⟨lt, h⟩ := Reading.exists_of_result_ok ih
    rw [Task.run, readPrimary]
    split
    · simp_all [literal?_eq_none_of_leftParen ht]
    · simp [ht, h, hc]
  | groupStuck ht _ ih =>
    obtain ⟨le, h⟩ := Reading.exists_of_result_error ih
    rw [Task.run, readPrimary]
    split
    · simp_all [literal?_eq_none_of_leftParen ht]
    · simp [ht, h]
  | @unclosed t ts rest e ht hc _ ih =>
    obtain ⟨lt, h⟩ := Reading.exists_of_result_ok ih
    rw [Task.run, readPrimary]
    split
    · simp_all [literal?_eq_none_of_leftParen ht]
    · cases rest with
      | nil => simp [ht, h]
      | cons c rest => simp [ht, h, hc c rfl]
  | unfit hv ht =>
    rw [Task.run, readPrimary]
    split
    · simp_all
    · simp [ht]
  | noPrimary => rfl

/-- So what the reader returns is given by the rules where they give anything. -/
theorem run {task : Task} {ts : List Token} {r : Result} (h : Descent task ts r) :
    Descent task ts (task.run ts) := by
  rw [run_eq h]
  exact h

/-- And they always do. -/
theorem run_all :
    (∀ l ts, Descent (.level l) ts (Task.run (.level l) ts)) ∧
      (∀ l left ts, Descent (.chain l left) ts (Task.run (.chain l left) ts)) ∧
        ∀ t rest, Descent .primary (t :: rest) (Task.run .primary (t :: rest)) := by
  -- by the recursion of the reader itself: one case for each of its branches, in its order
  apply readLevel.mutual_induct
    (fun l ts => Descent (.level l) ts (Task.run (.level l) ts))
    (fun l left ts => Descent (.chain l left) ts (Task.run (.chain l left) ts))
    (fun t rest => Descent .primary (t :: rest) (Task.run .primary (t :: rest)))
  case _ => -- a unary expression, no token left
    exact run missing
  case _ => -- a unary operator in front
    intro t rest ht ih
    rcases h : Task.run (.level .unary) rest with f | ⟨e, rest'⟩
    · exact run (negatedStuck ht (h ▸ ih))
    · exact run (negated ht (h ▸ ih))
  case _ => -- none
    intro t rest ht ih
    exact run (bare ht ih)
  case _ => -- a level whose first operand is stuck
    intro l ts hl x rest le h ih
    simp only [Task.run, h, Reading.result_stuck] at ih
    exact run (operandStuck hl ih)
  case _ => -- a level whose first operand is read
    intro l ts hl left rest lt h ih ihc
    simp only [Task.run, h, Reading.result_done] at ih
    exact run (operand hl ih ihc)
  case _ => -- a chain, no token left
    intro l left
    exact run chainEnd
  case _ => -- a chain that is stuck behind an operator
    intro l left t rest ht x rest' le h ih
    simp only [Task.run, h, Reading.result_stuck] at ih
    exact run (joinStuck ht ih)
  case _ => -- a chain that goes on behind an operator
    intro l left t rest ht right rest' lt h ih ihc
    simp only [Task.run, h, Reading.result_done] at ih
    exact run (join ht ih ihc)
  case _ => -- a chain that ends
    intro l left t rest ht
    exact run (chainStop ht)
  case _ => -- a literal
    intro t rest v hv
    exact run (literal hv)
  case _ => -- a grouping that is stuck
    intro t rest _ ht x rest' le h ih
    simp only [Task.run, h, Reading.result_stuck] at ih
    exact run (groupStuck ht ih)
  case _ => -- a grouping that the tokens end
    intro t rest _ ht e lt h ih
    simp only [Task.run, h, Reading.result_done] at ih
    exact run (unclosed ht (by simp) ih)
  case _ => -- a grouping
    intro t rest _ ht e closing rest' lt h hc ih
    simp only [Task.run, h, Reading.result_done] at ih
    exact run (group ht hc ih)
  case _ => -- a grouping that another token ends
    intro t rest _ ht e closing rest' lt h hc ih
    simp only [Task.run, h, Reading.result_done] at ih
    exact run (unclosed ht (by simpa using hc) ih)
  case _ => -- a token that does not fit
    intro t rest hv ht
    exact run (unfit hv ht)

/-- **The rules describe the reader**: they give exactly what it returns. -/
theorem iff_run_eq {task : Task} {ts : List Token} {r : Result} :
    Descent task ts r ↔ task.run ts = r := by
  refine ⟨run_eq, ?_⟩
  rintro rfl
  obtain ⟨hlevel, hchain, hprimary⟩ := run_all
  cases task with
  | level l => exact hlevel l ts
  | chain l left => exact hchain l left ts
  | primary =>
    cases ts with
    | nil => exact noPrimary
    | cons t rest => exact hprimary t rest

end Descent

end Lox
