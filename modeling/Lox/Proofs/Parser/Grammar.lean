import Lox.Proofs.Grammar.Faults
import Lox.Proofs.Grammar.Parsing
import Lox.Proofs.Grammar.Recovery
import Lox.Proofs.Parser.Rendering
/-!
# What a parser of a list accepts

What the grammar says of a stream it says of every parser in front of that
stream, wherever it stands in its list and whatever its sink holds: which
tokens it accepts and how many of them it passes, which token it reports, and
that the items of a sequence do not depend on each other.
-/


namespace Lox

namespace Parser

open Grammar

variable {p q : Parser} {e : Expr} {sink sink' : Diagnostics}

/-! ## One expression -/

/-- A parser gives a tree exactly if the stream in front of it does, and passes as many tokens. -/
theorem run_parse_eq_some_iff {n : Nat} (hn : n ≤ p.left) :
    p.parse.run sink = ((some e, p.past n), sink) ↔
      p.stream.parse = (.ok e, p.stream.withAhead (p.ahead.drop n)) := by
  have htake : (p.ahead.take n).length = n := List.length_take_of_le hn
  have hsplit : p.ahead = p.ahead.take n ++ p.ahead.drop n := (List.take_append_drop n _).symm
  rw [run_parse, parse_stream]
  constructor
  · intro h
    have hstream := stream_past hsplit
    rw [htake] at hstream
    rw [← hstream]
    cases hitem : p.expression.result.1 with
    | error f =>
      rw [hitem] at h
      cases h
    | ok e' =>
      rw [hitem] at h
      have hfst := (Prod.mk.inj h).1
      have he : e' = e := Option.some.inj (Prod.mk.inj hfst).1
      have hq : p.expression.result.2 = p.past n := (Prod.mk.inj hfst).2
      rw [he, hq]
  · intro h
    obtain ⟨hitem, hstream⟩ := Prod.mk.inj h
    obtain ⟨c, hc, hq⟩ := p.reaches_expression
    have hahead : p.expression.result.2.ahead = p.ahead.drop n :=
      congrArg TokenStream.ahead hstream
    have hlen : c.length = n := by
      have hlength := congrArg List.length hc
      rw [hahead, List.length_append, List.length_drop] at hlength
      rw [left] at hn
      omega
    rw [hitem, hq, hlen]
    exact Prod.ext rfl (List.append_nil sink)

/-- **A parser accepts exactly the grammar.** It gives the tree `e` and passes `n` tokens if and only
if these derive `e` and no binary operator is behind them. -/
theorem run_parse_eq_some_iff_derives {n : Nat} (hn : n ≤ p.left) :
    p.parse.run sink = ((some e, p.past n), sink) ↔
      Derives .comma (p.ahead.take n) e ∧ ∀ t, p.ahead[n]? = some t → ¬ IsBinaryOperator t := by
  rw [run_parse_eq_some_iff hn, ← ahead_stream]
  exact parse_eq_ok_iff_derives hn

/-- What is said of the stream of a list is said of a new parser of the list. -/
theorem run_start_parse_of_reporting {ts : List Token} {tree : Option Expr} {s : TokenStream}
    (h : (Reporting.parse (.ofTokens ts)).run sink = ((tree, s), sink')) :
    ∃ q, (start ts).parse.run sink = ((tree, q), sink') ∧ q.stream = s := by
  rw [← stream_start, run_reporting_parse] at h
  obtain ⟨hfst, hsink⟩ := Prod.mk.inj h
  obtain ⟨htree, hstream⟩ := Prod.mk.inj hfst
  exact ⟨_, Prod.ext (Prod.ext htree rfl) hsink, hstream⟩

/-- **A parser that gives no tree reports the first token that does not fit**, once, and is left in
front of it. With other tokens behind them, those it has passed are parsed as a whole; with the
token that does not fit, every list that begins so fails with the same report. -/
theorem exists_firstUnfit_of_run_parse (h : p.parse.run sink = ((none, q), sink')) :
    ∃ j d, q = p.past j ∧ sink' = sink ++ [d] ∧ FirstUnfit p.tokens p.current j d ∧
      (∃ w e q', (start (p.ahead.take j ++ w)).parse.run [] = ((some e, q'), []) ∧
        q'.ahead = []) ∧
      (j < p.left → ∀ rest, ∃ q',
        (start (p.ahead.take (j + 1) ++ rest)).parse.run [] = ((none, q'), [d])) := by
  obtain ⟨c, hc, hq⟩ := p.reaches_expression
  rw [run_parse, Prod.mk.injEq, Prod.mk.injEq] at h
  obtain ⟨⟨htree, rfl⟩, rfl⟩ := h
  cases hitem : p.expression.result.1 with
  | ok e =>
    rw [hitem] at htree
    cases htree
  | error f =>
    have hparse : p.stream.parse = (.error f, p.expression.result.2.stream) := by
      rw [parse_stream, hitem]
    obtain ⟨x, rest, rfl, hstream, hread⟩ := TokenStream.parse_eq_error_iff.1 hparse
    obtain ⟨d, hahead, hunfit⟩ := firstUnfit_of_descent hread
    have hrest : p.expression.result.2.ahead = rest := congrArg TokenStream.ahead hstream
    obtain rfl : c = d := List.append_cancel_right ((hrest ▸ hc).symm.trans hahead)
    refine ⟨c.length, _, hq, rfl, hunfit, ?_, fun hlt rest' => ?_⟩
    · obtain ⟨w, e, hw, hrun⟩ := hunfit.completes
      obtain ⟨q', hq', hstream'⟩ := run_start_parse_of_reporting (hrun [])
      refine ⟨w, e, q', hq', ?_⟩
      rw [← ahead_stream, hstream', TokenStream.fromIndex, List.drop_length]
      rfl
    · obtain ⟨q', hq', -⟩ := run_start_parse_of_reporting (hunfit.fails hlt rest' [])
      exact ⟨q', hq'⟩

/-! ## A sequence -/

/-- **A sequence is accepted exactly if it consists of expressions ended by semicolons.** It then
gives the trees of these blocks and reports nothing. -/
theorem run_parseSequence_eq_iff {es : List Expr} :
    p.parseSequence.run sink = ((es, p.past p.left), sink) ↔
      ∃ bs, DerivesSequence p.ahead bs ∧ bs.map Prod.snd = es := by
  rw [run_parseSequence, ← ahead_stream, ← TokenStream.items_eq_map_ok_iff, Prod.mk.injEq,
    Prod.mk.injEq, List.append_right_eq_self, List.map_eq_nil_iff]
  constructor
  · rintro ⟨⟨rfl, -⟩, herrors⟩
    exact TokenStream.items_eq_map_ok_of_errors_eq_nil herrors
  · intro hitems
    obtain ⟨herrors, hexpressions⟩ := TokenStream.errors_expressions_of_items_eq hitems
    exact ⟨⟨hexpressions, rfl⟩, herrors⟩

/-- **What stands behind a semicolon does not depend on what stands in front of it**, errors or
not. -/
theorem run_parseSequence_append {a : List Token} (h : EndsItem a)
    (ha : ∀ t ∈ a, t.isEof = false) (b : List Token) (sink : Diagnostics) :
    let run := fun ts => (start ts).parseSequence.run
    (run (a ++ b) sink).1.1 = (run a []).1.1 ++ (run b []).1.1 ∧
      (run (a ++ b) sink).2 = sink ++ ((run a []).2 ++ (run b []).2) := by
  have happend := Grammar.run_parseSequence_append h ha b sink
  simp only [← stream_start, run_reporting_parseSequence] at happend
  exact happend

end Parser

end Lox
