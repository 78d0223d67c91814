import Lox.Parser
import Lox.Proofs.Stream.Index
/-!
# Parsers and streams

A parser is in front of a stream: the tokens up to the next end marker, and
the line on which they end. What a parser sees of its list, and what it
reports about the token in front of it, is what that stream says; and a parser
that passes tokens passes those of the stream.
-/


namespace Lox

namespace Parser

variable {p : Parser} {t : Token} {ts : List Token}

/-- The stream in front of a parser. -/
def stream (p : Parser) : TokenStream := .fromIndex p.tokens p.current

/-- The parser `n` tokens further on. -/
def past (p : Parser) (n : Nat) : Parser := { p with current := p.current + n }

@[simp] theorem current_past (p : Parser) (n : Nat) : (p.past n).current = p.current + n := rfl

@[simp] theorem past_zero (p : Parser) : p.past 0 = p := rfl

theorem past_past (p : Parser) (m n : Nat) : (p.past m).past n = p.past (m + n) := by
  rw [past, past, past, Nat.add_assoc]

@[simp] theorem ahead_stream (p : Parser) : p.stream.ahead = p.ahead := rfl

/-- A new parser is in front of the stream of its list. -/
theorem stream_start (ts : List Token) : (start ts).stream = .ofTokens ts := rfl

/-- The stream in front of a parser that has passed some tokens. -/
theorem stream_past {c : List Token} (h : p.ahead = c ++ ts) :
    (p.past c.length).stream = p.stream.withAhead ts := by
  have hle : c.length ≤ (TokenStream.fromIndex p.tokens p.current).ahead.length := by
    rw [← stream, ahead_stream, h, List.length_append]
    exact Nat.le_add_right _ _
  have hadd := TokenStream.fromIndex_add hle
  rw [← stream, ahead_stream, h, List.drop_left] at hadd
  exact hadd

theorem ahead_past {c : List Token} (h : p.ahead = c ++ ts) : (p.past c.length).ahead = ts := by
  rw [← ahead_stream, stream_past h]
  rfl

/-! ## The token in front -/

theorem ahead_eq_nil_iff : p.ahead = [] ↔ p.isAtEnd = true := by
  refine ⟨fun h => Decidable.byContradiction fun hend => ?_, ahead_of_isAtEnd⟩
  rw [ahead_of_not_isAtEnd hend] at h
  cases h

theorem isAtEnd_of_cons (h : p.ahead = t :: ts) : p.isAtEnd = false := by
  rw [← Bool.not_eq_true, ← ahead_eq_nil_iff, h]
  exact List.cons_ne_nil t ts

/-- The first token ahead is in front of the parser. -/
theorem peek_of_cons (h : p.ahead = t :: ts) : p.peek = t := by
  rw [ahead_of_not_isAtEnd (by rw [isAtEnd_of_cons h]; decide), List.cons.injEq] at h
  exact h.1

theorem next_of_cons (h : p.ahead = t :: ts) : p.next = p.past 1 := by
  rw [next, isAtEnd_of_cons h]
  rfl

theorem ahead_next_of_cons (h : p.ahead = t :: ts) : p.next.ahead = ts := by
  rw [next_of_cons h]
  exact ahead_past (c := [t]) h

/-- And behind it once it is passed. -/
theorem previous_next_of_cons (h : p.ahead = t :: ts) : p.next.previous = t := by
  rw [next_of_cons h, ← peek_of_cons h]
  rfl

theorem next_of_nil (h : p.ahead = []) : p.next = p := by
  rw [next, if_pos (ahead_eq_nil_iff.1 h)]

/-- At the end an end marker is in front of the parser, and it is on the line of the end. -/
theorem peek_of_nil (h : p.ahead = []) : p.peek.isEof = true ∧ p.peek.line = p.stream.endLine := by
  refine ⟨ahead_eq_nil_iff.1 h, ?_⟩
  have hend : p.peek.isEof = true := ahead_eq_nil_iff.1 h
  cases hd : p.tokens.drop p.current with
  | nil =>
    have hnone : p.tokens[p.current]? = none := by rw [← List.head?_drop, hd, List.head?_nil]
    rw [stream, TokenStream.endLine_fromIndex_of_forall (by simp [hd]), peek, hnone,
      Option.getD_none]
    rfl
  | cons m rest =>
    have hsome : p.tokens[p.current]? = some m := by rw [← List.head?_drop, hd, List.head?_cons]
    have hpeek : p.peek = m := by rw [peek, hsome, Option.getD_some]
    rw [hpeek] at hend ⊢
    have hfind : (p.tokens.drop p.current).find? Token.isEof = some m := by simp [hd, hend]
    rw [stream, TokenStream.endLine_fromIndex_of_find? hfind]

/-- **An error is about the next token of the stream**, whatever the end marker in the list is. -/
theorem atToken_peek (x : Expected) (p : Parser) :
    ParseError.atToken x p.peek = .atToken x p.stream.peek := by
  cases h : p.ahead with
  | nil =>
    obtain ⟨hend, hline⟩ := peek_of_nil h
    have hpeek : p.stream.peek = .eof p.stream.endLine := by
      rw [TokenStream.peek, ahead_stream, h]
      rfl
    rw [hpeek, ParseError.atToken, ParseError.atToken, hline, Token.location, hend]
    rfl
  | cons t ts =>
    have hpeek : p.stream.peek = t := by
      rw [TokenStream.peek, ahead_stream, h]
      rfl
    rw [hpeek, peek_of_cons h]

/-! ## Symbols that are looked for -/

theorem check_of_cons (h : p.ahead = t :: ts) (s : Symbol) : p.check s = t.isSymbol s := by
  rw [check, isAtEnd_of_cons h, peek_of_cons h]
  rfl

theorem check_of_nil (h : p.ahead = []) (s : Symbol) : p.check s = false := by
  rw [check, ahead_eq_nil_iff.1 h]
  rfl

theorem matchAny?_of_cons (h : p.ahead = t :: ts) {symbols : List Symbol}
    (ht : symbols.any t.isSymbol = true) : p.matchAny? symbols = some (t, p.next) := by
  rw [matchAny?, funext (check_of_cons h), if_pos ht, advance, previous_next_of_cons h]

theorem matchAny?_of_not (h : p.ahead = t :: ts) {symbols : List Symbol}
    (ht : ¬ symbols.any t.isSymbol = true) : p.matchAny? symbols = none := by
  rw [matchAny?, funext (check_of_cons h), if_neg ht]

theorem matchAny?_of_nil (h : p.ahead = []) (symbols : List Symbol) :
    p.matchAny? symbols = none := by
  rw [matchAny?, funext (check_of_nil h), if_neg (by simp)]

theorem consume_of_cons (h : p.ahead = t :: ts) {s : Symbol} (ht : t.isSymbol s = true)
    (x : Expected) : p.consume s x = .ok (t, p.next) := by
  rw [consume, check_of_cons h, if_pos ht, advance, previous_next_of_cons h]

theorem consume_of_not {s : Symbol} (h : ∀ c ∈ p.ahead.head?, ¬ c.isSymbol s = true)
    (x : Expected) : p.consume s x = .error (.atToken x p.peek) := by
  cases hp : p.ahead with
  | nil => rw [consume, check_of_nil hp, if_neg (by decide)]
  | cons t ts =>
    rw [hp] at h
    rw [consume, check_of_cons hp, if_neg (h t rfl)]

end Parser

end Lox
