import Lox.Proofs.Parser.Position
import Lox.Proofs.Grammar.Descent
/-!
# The descent of a parser

What a parser does with its list, the reader does with the tokens ahead: the
two come to the same tree, or are stuck in front of the same token, and the
parser has passed what the reader has used up. This is shown rule by rule of
the descent, so that nothing else of the parser is unfolded.
-/


namespace Lox

namespace Parser

variable {p q r : Parser} {t : Token} {ts rest : List Token}

/-- Having passed some of the tokens ahead of `p`, `q` is in front of `rest`. -/
def Reaches (p : Parser) (rest : List Token) (q : Parser) : Prop :=
  ∃ c, p.ahead = c ++ rest ∧ q = p.past c.length

namespace Reaches

theorem refl (h : p.ahead = rest) : p.Reaches rest p := ⟨[], h, rfl⟩

theorem ahead (h : p.Reaches rest q) : q.ahead = rest := by
  obtain ⟨c, hc, rfl⟩ := h
  exact ahead_past hc

theorem stream (h : p.Reaches rest q) : q.stream = p.stream.withAhead rest := by
  obtain ⟨c, hc, rfl⟩ := h
  exact stream_past hc

theorem trans (h : p.Reaches ts q) (h' : q.Reaches rest r) : p.Reaches rest r := by
  have hq := h.ahead
  obtain ⟨c, hc, rfl⟩ := h
  obtain ⟨d, hd, rfl⟩ := h'
  refine ⟨c ++ d, ?_, ?_⟩
  · rw [hc, ← hq, hd, List.append_assoc]
  · rw [past_past, List.length_append]

theorem next (h : p.ahead = t :: ts) : p.Reaches ts p.next := ⟨[t], h, next_of_cons h⟩

end Reaches

namespace Outcome

/-- The outcome without its bound. -/
def result {n : Nat} : Outcome n → Item × Parser
  | done e p _ => (.ok e, p)
  | stuck error p _ => (.error error, p)

@[simp] theorem result_done {n : Nat} {e : Expr} {h : p.left < n} :
    (done e p h).result = (.ok e, p) := rfl

@[simp] theorem result_stuck {n : Nat} {error : ParseError} {h : p.left ≤ n} :
    (stuck error p h).result = (.error error, p) := rfl

@[simp] theorem result_widen {m n : Nat} {h : m ≤ n} {o : Outcome m} :
    (o.widen h).result = o.result := by
  cases o <;> rfl

end Outcome

/-- What a call on `p` comes to where the reader comes to a result on the tokens ahead: the same
tree, or the error about the token in front, and the parser behind what the reader has used up. -/
inductive Follows (p : Parser) : Reading.Result → Item × Parser → Prop
  | done {e : Expr} {rest : List Token} {q : Parser} :
      p.Reaches rest q → Follows p (.ok (e, rest)) (.ok e, q)
  | stuck {x : Expected} {rest : List Token} {q : Parser} :
      p.Reaches rest q → Follows p (.error (x, rest)) (.error (.atToken x q.peek), q)

/-! ## The branches of the parser -/

/-- Goes on with a tree, where there is one. -/
def andThen (o : Item × Parser) (f : Expr → Parser → Item × Parser) : Item × Parser :=
  match o with
  | (.ok e, q) => f e q
  | (.error error, q) => (.error error, q)

namespace Follows

variable {result : Reading.Result} {o : Item × Parser} {f : Expr → Parser → Item × Parser}

/-- The same of a call that is made further on. -/
theorem of_reaches (h : q.Follows result o) (hq : p.Reaches ts q) : p.Follows result o := by
  cases h with
  | done hr => exact .done (hq.trans hr)
  | stuck hr => exact .stuck (hq.trans hr)

/-- Going on with the tree that was read. -/
theorem andThen {e : Expr} (h : p.Follows (.ok (e, rest)) o)
    (hf : ∀ q, p.Reaches rest q → p.Follows result (f e q)) :
    p.Follows result (Parser.andThen o f) := by
  cases h with
  | done hq => exact hf _ hq

/-- Where the reader is stuck the parser does not go on. -/
theorem andThen_error {stuck : Expected × List Token} (h : p.Follows (.error stuck) o) :
    p.Follows (.error stuck) (Parser.andThen o f) := by
  cases h with
  | stuck hq => exact .stuck hq

end Follows

theorem result_level_unary (p : Parser) :
    (level .unary p).result =
      match p.matchAny? [.bang, .minus] with
      | some (operator, q) =>
        andThen (level .unary q).result fun e r => (.ok (.unary operator e), r)
      | none => (primary p).result := by
  rw [level, dif_pos rfl]
  split
  · rename_i q hm
    simp only [hm, Outcome.result_widen]
    cases level .unary q <;> rfl
  · rename_i hm
    rw [hm]

theorem result_level {l : Level} (hl : l ≠ .unary) (p : Parser) :
    (level l p).result = andThen (level l.operand p).result fun left q =>
      (chain l left q).result := by
  rw [level, dif_neg hl]
  cases level l.operand p with
  | stuck => rfl
  | done => exact Outcome.result_widen

theorem result_chain (l : Level) (left : Expr) (p : Parser) :
    (chain l left p).result =
      match p.matchAny? l.operators with
      | none => (.ok left, p)
      | some (operator, q) =>
        andThen (level l.operand q).result fun right r =>
          (chain l (.binary left operator right) r).result := by
  rw [chain]
  split
  · rename_i hm
    rw [hm]
    rfl
  · rename_i q hm
    simp only [hm]
    cases level l.operand q with
    | stuck => rfl
    | done => exact Outcome.result_widen

theorem result_primary (p : Parser) :
    (primary p).result =
      match p.peek.data.literal? with
      | some v => (.ok (.literal v), p.next)
      | none =>
        if p.peek.isSymbol .leftParen then
          andThen (level .comma p.next).result fun e q =>
            match q.consume .rightParen .rightParen with
            | .error error => (.error error, q)
            | .ok (_, r) => (.ok (.group e), r)
        else (.error (.atToken .expression p.peek), p) := by
  rw [primary]
  split
  · rename_i hv
    simp only [hv, Outcome.result_done]
  · rename_i hv
    simp only [hv]
    split
    · cases level .comma p.next with
      | stuck => rfl
      | done e q lt =>
        dsimp only [andThen, Outcome.result_done]
        split
        · rename_i hc
          simp only [hc, Outcome.result_stuck]
        · rename_i hc
          simp only [hc, Outcome.result_done]
    · rfl

theorem result_terminated (p : Parser) :
    p.terminated.result = andThen p.expression.result fun e q =>
      match q.consume .semicolon .semicolon with
      | .error error => (.error error, q)
      | .ok (_, r) => (.ok e, r) := by
  rw [terminated]
  cases p.expression with
  | stuck => rfl
  | done e q lt =>
    dsimp only [andThen, Outcome.result_done]
    split
    · rename_i hc
      simp only [hc, Outcome.result_stuck]
    · rename_i hc
      simp only [hc, Outcome.result_done]

/-! ## The parser and the reader -/

/-- A token that does not fit is left in front of the parser. -/
theorem follows_unfit (x : Expected) (h : p.ahead = ts) :
    p.Follows (.error (x, ts)) (.error (.atToken x p.peek), p) :=
  .stuck (.refl h)

/-- At the end no expression is found. -/
theorem follows_primary_of_nil (h : p.ahead = []) :
    p.Follows (.error (.expression, [])) (primary p).result := by
  have hend : p.peek.data = .eof := data_of_isAtEnd (ahead_eq_nil_iff.1 h)
  rw [result_primary, hend, Token.isSymbol, hend]
  exact follows_unfit .expression h

/-- Behind an opening parenthesis an expression is parsed, and the closing one is looked for. -/
theorem result_primary_of_leftParen (h : p.ahead = t :: ts) (ht : t.isSymbol .leftParen = true) :
    (primary p).result = andThen (level .comma p.next).result fun e q =>
      match q.consume .rightParen .rightParen with
      | .error error => (.error error, q)
      | .ok (_, r) => (.ok (.group e), r) := by
  rw [result_primary, peek_of_cons h, Descent.literal?_eq_none_of_leftParen ht]
  exact if_pos ht

theorem any_unaryOperators (t : Token) :
    [Symbol.bang, .minus].any t.isSymbol = t.isUnaryOperator := by
  simp [Token.isUnaryOperator]

/-- What the parser does for a task. -/
def perform (p : Parser) : Task → Item × Parser
  | .level l => (level l p).result
  | .chain l left => (chain l left p).result
  | .primary => (primary p).result

/-- **A parser follows the descent**: whatever the rules give for the tokens ahead is what it
does. -/
theorem follows_of_descent {task : Task} {result : Reading.Result} (h : Descent task ts result)
    (hp : p.ahead = ts) : p.Follows result (p.perform task) := by
  -- by the rules; behind the first token the parser is one token further on
  induction h generalizing p with
  | missing =>
    rw [perform, result_level_unary, matchAny?_of_nil hp]
    exact follows_primary_of_nil hp
  | negated ht _ ih =>
    rw [perform, result_level_unary,
      matchAny?_of_cons hp (by rwa [any_unaryOperators])]
    exact ((ih (ahead_next_of_cons hp)).of_reaches (.next hp)).andThen fun q hq => .done hq
  | negatedStuck ht _ ih =>
    rw [perform, result_level_unary,
      matchAny?_of_cons hp (by rwa [any_unaryOperators])]
    exact ((ih (ahead_next_of_cons hp)).of_reaches (.next hp)).andThen_error
  | bare ht _ ih =>
    rw [perform, result_level_unary,
      matchAny?_of_not hp (by rwa [any_unaryOperators])]
    exact ih hp
  | operand hl _ _ ih ihc =>
    rw [perform, result_level hl]
    exact (ih hp).andThen fun q hq => (ihc hq.ahead).of_reaches hq
  | operandStuck hl _ ih =>
    rw [perform, result_level hl]
    exact (ih hp).andThen_error
  | join ht _ _ ih ihc =>
    rw [perform, result_chain, matchAny?_of_cons hp ht]
    exact ((ih (ahead_next_of_cons hp)).of_reaches (.next hp)).andThen fun q hq =>
      (ihc hq.ahead).of_reaches hq
  | joinStuck ht _ ih =>
    rw [perform, result_chain, matchAny?_of_cons hp ht]
    exact ((ih (ahead_next_of_cons hp)).of_reaches (.next hp)).andThen_error
  | chainEnd =>
    rw [perform, result_chain, matchAny?_of_nil hp]
    exact .done (.refl hp)
  | chainStop ht =>
    rw [perform, result_chain, matchAny?_of_not hp ht]
    exact .done (.refl hp)
  | literal hv =>
    rw [perform, result_primary, peek_of_cons hp, hv]
    exact .done (.next hp)
  | group ht hc _ ih =>
    rw [perform, result_primary_of_leftParen hp ht]
    refine ((ih (ahead_next_of_cons hp)).of_reaches (.next hp)).andThen fun q hq => ?_
    rw [consume_of_cons hq.ahead hc]
    exact .done (hq.trans (.next hq.ahead))
  | groupStuck ht _ ih =>
    rw [perform, result_primary_of_leftParen hp ht]
    exact ((ih (ahead_next_of_cons hp)).of_reaches (.next hp)).andThen_error
  | unclosed ht hc _ ih =>
    rw [perform, result_primary_of_leftParen hp ht]
    refine ((ih (ahead_next_of_cons hp)).of_reaches (.next hp)).andThen fun q hq => ?_
    rw [consume_of_not (hq.ahead.symm ▸ hc)]
    exact .stuck hq
  | unfit hv ht =>
    have hpeek := peek_of_cons hp
    subst hpeek
    rw [perform, result_primary, hv]
    simp only [ht]
    exact follows_unfit .expression hp
  | noPrimary => exact follows_primary_of_nil hp

theorem follows_expression (p : Parser) :
    p.Follows (readExpression p.ahead).result p.expression.result := by
  have h : Descent (.level .comma) p.ahead (readExpression p.ahead).result :=
    Descent.iff_run_eq.2 rfl
  exact follows_of_descent h rfl

end Parser

end Lox
