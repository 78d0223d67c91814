import Lox.Reporting
/-!
# Parsers

A parser holds a token list and the number of tokens it has passed. It can be
called again and again, for one expression or for the rest of the list as a
sequence, and each call goes on where the one before it stopped: behind an
expression, or in front of the token that did not fit. The parser looks at the
token in front of it and at the one behind it, and passes no end marker. A
list without an end marker is treated as if one stood behind it, on the line
of its last token.
-/


namespace Lox

/-- A token list and the place of a parser in it. -/
structure Parser where
  tokens : List Token
  /-- The number of tokens passed. -/
  current : Nat
deriving DecidableEq

namespace Parser

/-- A parser in front of the first token. -/
def start (ts : List Token) : Parser := ⟨ts, 0⟩

/-- The marker that stands behind the whole list. -/
def endMarker (p : Parser) : Token := .eof ((p.tokens.getLast?.map Token.line).getD 1)

/-- The token in front of the parser. -/
def peek (p : Parser) : Token := p.tokens[p.current]?.getD p.endMarker

/-- The token behind the parser. -/
def previous (p : Parser) : Token :=
  match p.current with
  | 0 => p.endMarker
  | n + 1 => p.tokens[n]?.getD p.endMarker

/-- Whether an end marker is in front of the parser. -/
def isAtEnd (p : Parser) : Bool := p.peek.isEof

/-- The parser one token further on. -/
def next (p : Parser) : Parser := if p.isAtEnd then p else { p with current := p.current + 1 }

/-- Passes the token in front and returns it. -/
def advance (p : Parser) : Token × Parser := (p.next.previous, p.next)

/-- Whether the token in front is the symbol `s`. -/
def check (p : Parser) (s : Symbol) : Bool := !p.isAtEnd && p.peek.isSymbol s

/-- Passes the token in front if it is one of the symbols. -/
def matchAny? (p : Parser) (symbols : List Symbol) : Option (Token × Parser) :=
  if symbols.any p.check then some p.advance else none

/-- Passes the token in front, which should be the symbol `s`. -/
def consume (p : Parser) (s : Symbol) (x : Expected) : Except ParseError (Token × Parser) :=
  if p.check s then .ok p.advance else .error (.atToken x p.peek)

/-- The tokens in front of the parser, up to the next end marker. -/
def ahead (p : Parser) : List Token := (p.tokens.drop p.current).takeWhile fun t => !t.isEof

/-- The number of these tokens. It bounds the descent. -/
def left (p : Parser) : Nat := p.ahead.length

theorem ahead_of_isAtEnd {p : Parser} (h : p.isAtEnd = true) : p.ahead = [] := by
  cases hd : p.tokens.drop p.current with
  | nil => rw [ahead, hd, List.takeWhile_nil]
  | cons t ts =>
    have hpeek : p.tokens[p.current]? = some t := by
      rw [← List.head?_drop, hd, List.head?_cons]
    rw [isAtEnd, peek, hpeek, Option.getD_some] at h
    rw [ahead, hd, List.takeWhile_cons_of_neg (by simp [h])]

/-- Away from the end the next token is the first one ahead. -/
theorem ahead_of_not_isAtEnd {p : Parser} (h : ¬ p.isAtEnd = true) :
    p.ahead = p.peek :: p.next.ahead := by
  cases hd : p.tokens[p.current]? with
  | none =>
    rw [isAtEnd, peek, hd] at h
    exact absurd rfl h
  | some t =>
    obtain ⟨hlt, ht⟩ := List.getElem?_eq_some_iff.1 hd
    have hpeek : p.peek = t := by rw [peek, hd, Option.getD_some]
    have heof : t.isEof = false := by rwa [isAtEnd, hpeek, Bool.not_eq_true] at h
    rw [next, if_neg h, hpeek, ahead, List.drop_eq_getElem_cons hlt, ht,
      List.takeWhile_cons_of_pos (by simp [heof])]
    rfl

theorem left_next {p : Parser} (h : ¬ p.isAtEnd = true) : p.next.left + 1 = p.left := by
  rw [left, left, ahead_of_not_isAtEnd h, List.length_cons]

theorem left_next_le (p : Parser) : p.next.left ≤ p.left := by
  by_cases h : p.isAtEnd = true
  · exact Nat.le_of_eq (by rw [next, if_pos h])
  · have hlt := left_next h
    omega

theorem not_isAtEnd_of_check {p : Parser} {s : Symbol} (h : p.check s = true) :
    ¬ p.isAtEnd = true := by
  intro hend
  rw [check, hend] at h
  cases h

/-- A symbol that is matched is passed. -/
theorem left_of_matchAny? {p q : Parser} {symbols : List Symbol} {t : Token}
    (h : p.matchAny? symbols = some (t, q)) : q.left + 1 = p.left := by
  unfold matchAny? at h
  split at h
  · rename_i hany
    obtain ⟨s, -, hs⟩ := List.any_eq_true.1 hany
    cases h
    exact left_next (not_isAtEnd_of_check hs)
  · cases h

/-- So is a symbol that should stand there and does. -/
theorem left_of_consume {p q : Parser} {s : Symbol} {x : Expected} {t : Token}
    (h : p.consume s x = .ok (t, q)) : q.left + 1 = p.left := by
  unfold consume at h
  split at h
  · rename_i hs
    cases h
    exact left_next (not_isAtEnd_of_check hs)
  · cases h

theorem data_of_isAtEnd {p : Parser} (h : p.isAtEnd = true) : p.peek.data = .eof := by
  simpa [isAtEnd, Token.isEof] using h

theorem not_isAtEnd_of_literal? {p : Parser} {v : Literal} (h : p.peek.data.literal? = some v) :
    ¬ p.isAtEnd = true := by
  intro hend
  rw [data_of_isAtEnd hend] at h
  cases h

theorem not_isAtEnd_of_isSymbol {p : Parser} {s : Symbol} (h : p.peek.isSymbol s = true) :
    ¬ p.isAtEnd = true := by
  intro hend
  rw [Token.isSymbol, data_of_isAtEnd hend] at h
  cases h

/-! ## The descent -/

/-- What a call gives and where it leaves the parser. When it is done, fewer than `bound` tokens are
left; when it is stuck, no more than `bound`. -/
inductive Outcome (bound : Nat)
  | done (e : Expr) (p : Parser) (left_lt : p.left < bound)
  | stuck (error : ParseError) (p : Parser) (left_le : p.left ≤ bound)

namespace Outcome

/-- The same outcome under a looser bound. -/
def widen {m n : Nat} (h : m ≤ n) : Outcome m → Outcome n
  | done e p lt => done e p (Nat.lt_of_lt_of_le lt h)
  | stuck error p le => stuck error p (Nat.le_trans le h)

/-- The outcome with `f` applied to the tree. -/
def map {n : Nat} (f : Expr → Expr) : Outcome n → Outcome n
  | done e p lt => done (f e) p lt
  | stuck error p le => stuck error p le

end Outcome

mutual

/-- Parses the longest expression of level `l`. -/
def level (l : Level) (p : Parser) : Outcome p.left :=
  if _h : l = .unary then
    match _hm : p.matchAny? [.bang, .minus] with
    | some (operator, q) =>
      ((level .unary q).map (.unary operator)).widen (by have := left_of_matchAny? _hm; omega)
    | none => primary p
  else
    match level l.operand p with
    | .stuck error q le => .stuck error q le
    | .done left q lt => (chain l left q).widen lt
termination_by 8 * p.left + l.rank + 1
decreasing_by
  · have := left_of_matchAny? _hm
    simp only [Level.rank]; omega
  · omega
  · have := Level.rank_operand_lt _h
    omega
  · omega

/-- Goes on behind an operand of level `l`: as long as an operator of that level follows, it and
the next operand are joined to `left`. -/
def chain (l : Level) (left : Expr) (p : Parser) : Outcome (p.left + 1) :=
  match _hm : p.matchAny? l.operators with
  | none => .done left p (Nat.lt_succ_self _)
  | some (operator, q) =>
    match level l.operand q with
    | .stuck error r le => .stuck error r (by have := left_of_matchAny? _hm; omega)
    | .done right r lt =>
      (chain l (.binary left operator right) r).widen (by have := left_of_matchAny? _hm; omega)
termination_by 8 * p.left
decreasing_by
  · have := left_of_matchAny? _hm
    have := Level.rank_le l.operand
    omega
  · have := left_of_matchAny? _hm
    omega

/-- Parses a literal or a grouping. -/
def primary (p : Parser) : Outcome p.left :=
  match _hv : p.peek.data.literal? with
  | some v =>
    .done (.literal v) p.next (by have := left_next (not_isAtEnd_of_literal? _hv); omega)
  | none =>
    if _ho : p.peek.isSymbol .leftParen then
      match level .comma p.next with
      | .stuck error q le => .stuck error q (by have := left_next_le p; omega)
      | .done e q lt =>
        match _hc : q.consume .rightParen .rightParen with
        | .error error => .stuck error q (by have := left_next_le p; omega)
        | .ok (_, r) =>
          .done (.group e) r (by have := left_of_consume _hc; have := left_next_le p; omega)
    else
      .stuck (.atToken .expression p.peek) p (Nat.le_refl _)
termination_by 8 * p.left
decreasing_by
  have := left_next (not_isAtEnd_of_isSymbol _ho)
  simp only [Level.rank]; omega

end

/-- Parses an expression. -/
def expression (p : Parser) : Outcome p.left := level .comma p

/-- Parses an expression and the semicolon behind it. -/
def terminated (p : Parser) : Outcome p.left :=
  match p.expression with
  | .stuck error q le => .stuck error q le
  | .done e q lt =>
    match _hc : q.consume .semicolon .semicolon with
    | .error error => .stuck error q (Nat.le_of_lt lt)
    | .ok (_, r) => .done e r (by have := left_of_consume _hc; omega)

/-! ## Going on after an error -/

/-- The parser behind the next semicolon or in front of the next word that starts a statement. -/
def resume (p : Parser) : Parser :=
  if _h : p.isAtEnd then p
  else if p.previous.isSymbol .semicolon || p.peek.startsStatement then p
  else resume p.next
termination_by p.left
decreasing_by
  have := left_next _h
  omega

/-- The parser where it goes on after an error. At least the token in front of it is given up. -/
def synchronize (p : Parser) : Parser := p.next.resume

theorem left_resume_le (p : Parser) : p.resume.left ≤ p.left := by
  fun_induction resume p with
  | case1 | case2 => exact Nat.le_refl _
  | case3 p _ _ ih => exact Nat.le_trans ih (left_next_le p)

/-- Away from the end something is given up, and at the end there is nothing left. -/
theorem left_synchronize_le (p : Parser) : p.synchronize.left ≤ p.left - 1 := by
  have hresume := left_resume_le p.next
  rw [synchronize]
  by_cases h : p.isAtEnd = true
  · have hleft : p.left = 0 := by rw [left, ahead_of_isAtEnd h, List.length_nil]
    have hnext := left_next_le p
    omega
  · have hnext := left_next h
    omega

/-! ## Calls -/

/-- Parses one expression and reports the error, if there is one. After an error the parser is left
in front of the token that does not fit. -/
def parse (p : Parser) : Reporting (Option Expr × Parser) :=
  match p.expression with
  | .done e q _ => return (some e, q)
  | .stuck error q _ => do
    Reporting.report error.diagnostic
    return (none, q)

/-- Parses the rest of the list as expressions ended by semicolons, and reports each error where it
is met. -/
def parseSequence (p : Parser) : Reporting (List Expr × Parser) :=
  if _h : p.isAtEnd then
    return ([], p)
  else
    match p.terminated with
    | .done e q _ => do
      let (es, r) ← parseSequence q
      return (e :: es, r)
    | .stuck error q _ => do
      Reporting.report error.diagnostic
      parseSequence q.synchronize
termination_by p.left
decreasing_by
  · omega
  · have := left_synchronize_le q
    have := left_next _h
    omega

/-- What a parser can be called for. -/
inductive Call
  | parse
  | parseSequence
deriving DecidableEq

/-- What a call gives. -/
inductive Answer
  | expression (e : Option Expr)
  | sequence (es : List Expr)
deriving DecidableEq

/-- Makes one call. -/
def call (p : Parser) : Call → Reporting (Answer × Parser)
  | .parse => do
    let (e, q) ← p.parse
    return (.expression e, q)
  | .parseSequence => do
    let (es, q) ← p.parseSequence
    return (.sequence es, q)

/-- What a call gives and what it reports. -/
structure Reply where
  answer : Answer
  reports : Diagnostics
deriving DecidableEq

/-- The reply to one call, which has a sink of its own. -/
def reply (p : Parser) (c : Call) : Reply × Parser :=
  let ((answer, q), reports) := (p.call c).run []
  (⟨answer, reports⟩, q)

/-- The replies to calls one after another. -/
def replies (p : Parser) : List Call → List Reply × Parser
  | [] => ([], p)
  | c :: cs =>
    let (r, q) := p.reply c
    let (rs, last) := q.replies cs
    (r :: rs, last)

end Parser

end Lox
