import Lox.Proofs.Grammar.Parsing
import Lox.Proofs.Grammar.Stopping
import Lox.Proofs.Grammar.Yield
import Lox.Reporting
/-!
# What a failed parse reports

A parse that fails is reported once, about the first token that does not fit:
the tokens before it begin an expression, and with the token itself behind
them nothing does. The message tells whether an operand stands in front of
that token.
-/


namespace Lox

namespace Grammar

open TokenStream

/-- **The report of a failed parse.** A parser stands at token number `k` of a list. What is ahead of
it are the tokens up to the next end marker; it passes the first `j` of them, and `d` is its report
about the one behind those. -/
structure FirstUnfit (ts : List Token) (k j : Nat) (d : Diagnostic) : Prop where
  le_length : j ≤ (fromIndex ts k).ahead.length
  /-- The report points at the token where it is about one. -/
  token : ∀ t, (fromIndex ts k).ahead[j]? = some t →
    d.line = t.line ∧ d.location = " at '".toList ++ t.lexeme ++ "'".toList
  /-- It points at the end where all that is ahead is passed: at the end marker if there is one. -/
  marker : j = (fromIndex ts k).ahead.length → ∀ m, (ts.drop k).find? Token.isEof = some m →
    d.line = m.line ∧ d.location = " at end".toList
  /-- And else at the last line of the list. -/
  noMarker : j = (fromIndex ts k).ahead.length → (∀ t ∈ ts.drop k, t.isEof = false) →
    d.line = (ts.getLast?.map Token.line).getD 1 ∧ d.location = " at end".toList
  /-- What is passed can be completed: with some tokens behind it, it is parsed as a whole. -/
  completes : ∃ w e, (∀ t ∈ w, t.isEof = false) ∧
    ∀ sink, let ts' := (fromIndex ts k).ahead.take j ++ w
      (Reporting.parse (ofTokens ts')).run sink = ((some e, fromIndex ts' ts'.length), sink)
  /-- With the token behind it, it cannot: every list that begins so fails in the same way. -/
  fails : j < (fromIndex ts k).ahead.length → ∀ rest sink,
    let ts' := (fromIndex ts k).ahead.take (j + 1) ++ rest
    (Reporting.parse (ofTokens ts')).run sink = ((none, fromIndex ts' j), sink ++ [d])
  /-- A closing parenthesis is expected behind an operand. -/
  message_of_operand : EndsOperand ((fromIndex ts k).ahead.take j) →
    d.message = "Expect ')' after expression.".toList
  /-- And an operand everywhere else. -/
  message_of_not_operand : ¬ EndsOperand ((fromIndex ts k).ahead.take j) →
    d.message = "Expect expression.".toList

/-! ## What is passed -/

/-- No rule mentions an end marker, so no expression contains one. -/
theorem IsTerminal.not_isEof {t : Token} (h : IsTerminal t) : t.isEof = false := by
  have hne : t.data ≠ .eof := by
    intro hd
    rcases h.symbol_or_literal with ⟨s, hs⟩ | ⟨v, hv⟩
    · cases hd.symm.trans hs
    · rw [hd] at hv
      cases hv
  simpa [Token.isEof] using hne

/-- A derived token string is parsed as a whole. -/
theorem run_parse_of_derives {c : List Token} {e : Expr} (h : Derives .comma c e)
    (sink : Diagnostics) :
    (Reporting.parse (ofTokens c)).run sink = ((some e, fromIndex c c.length), sink) := by
  have hmarker : ∀ t ∈ c, t.isEof = false := fun t ht => (h.isTerminal t ht).not_isEof
  have hahead := ahead_ofTokens_eq_self hmarker
  have hend : fromIndex c c.length = (ofTokens c).withAhead [] := by
    have hlast := fromIndex_length hmarker []
    rwa [List.append_nil] at hlast
  have hparse : (ofTokens c).parse = (.ok e, fromIndex c c.length) := by
    refine parse_eq_ok_iff.2 ⟨[], hend, ?_⟩
    rw [hahead]
    exact descent_comma_iff.2 ⟨c, (List.append_nil c).symm, h, nofun⟩
  rw [Reporting.run_parse, hparse]
  simp [Item.expr?, Item.diagnostics, Item.error?]

/-- **What is passed can be completed.** -/
theorem Begins.exists_run_parse {c : List Token} (h : Begins .comma c) :
    ∃ w e, (∀ t ∈ w, t.isEof = false) ∧
      ∀ sink, (Reporting.parse (ofTokens (c ++ w))).run sink =
        ((some e, fromIndex (c ++ w) (c ++ w).length), sink) := by
  obtain ⟨w, e, hder⟩ := h
  refine ⟨w, e, fun t ht => ?_, fun sink => run_parse_of_derives hder sink⟩
  exact (hder.isTerminal t (List.mem_append_right c ht)).not_isEof

/-! ## The token that does not fit -/

/-- A failed parse adds the report of its error to the sink. -/
theorem run_parse_eq_none_iff {s s' : TokenStream} {sink sink' : Diagnostics} :
    (Reporting.parse s).run sink = ((none, s'), sink') ↔
      ∃ f, s.parse = (.error f, s') ∧ sink' = sink ++ [f.diagnostic] := by
  rw [Reporting.run_parse]
  obtain ⟨item, s''⟩ := s.parse
  cases item with
  | ok e =>
    constructor
    · rintro ⟨⟩
    · rintro ⟨f, ⟨⟩, -⟩
  | error f =>
    constructor
    · rintro ⟨⟩
      exact ⟨f, rfl, rfl⟩
    · rintro ⟨f, ⟨⟩, rfl⟩
      rfl

/-- **With the token behind it, nothing helps**: every list that begins with what is passed and the
token fails in the same way. -/
theorem run_parse_of_passes {c us : List Token} {t : Token} {x : Expected}
    (h : Passes (.level .comma) c (.error (x, t :: us)))
    (hc : ∀ u ∈ c, u.isEof = false) (ht : t.isEof = false) (rest : List Token)
    (sink : Diagnostics) :
    (Reporting.parse (ofTokens (c ++ t :: rest))).run sink =
      ((none, fromIndex (c ++ t :: rest) c.length),
        sink ++ [(ParseError.atToken x t).diagnostic]) := by
  have htoken : (ofTokens (t :: rest)).ahead = t :: (ofTokens rest).ahead :=
    ahead_ofTokens_append (c := [t]) (List.forall_mem_singleton.2 ht) rest
  rw [run_parse_eq_none_iff]
  refine ⟨_, parse_eq_error_iff.2 ⟨x, (ofTokens (t :: rest)).ahead, ?_, ?_, ?_⟩, rfl⟩
  · rw [htoken]
    rfl
  · exact fromIndex_length hc (t :: rest)
  · rw [ahead_ofTokens_append hc]
    exact h _ (by rw [htoken]; rfl)

/-! ## The report -/

/-- What is expected next is told in words. -/
theorem Agrees.message {x : Expected} {c : List Token} (h : Agrees x c) :
    (EndsOperand c → x.message = "Expect ')' after expression.".toList) ∧
      (¬ EndsOperand c → x.message = "Expect expression.".toList) := by
  rcases h with ⟨rfl, hend⟩ | ⟨rfl, hend⟩
  · exact ⟨fun _ => rfl, fun hnot => absurd hend hnot⟩
  · exact ⟨fun hend' => absurd hend' hend, fun _ => rfl⟩

/-- **Where a descent is stuck, its error is about the first token that does not fit.** -/
theorem firstUnfit_of_descent {ts rest : List Token} {k : Nat} {x : Expected}
    (h : Descent (.level .comma) (fromIndex ts k).ahead (.error (x, rest))) :
    ∃ c, (fromIndex ts k).ahead = c ++ rest ∧
      FirstUnfit ts k c.length
        (ParseError.atToken x ((fromIndex ts k).withAhead rest).peek).diagnostic := by
  obtain ⟨c, hahead, hstuck⟩ := stuck_of_descent h
  have hpasses := h.passes hahead
  have hmarker : ∀ t ∈ c ++ rest, t.isEof = false := fun t ht =>
    not_isEof_of_mem_ahead (hahead ▸ ht)
  obtain ⟨hc, hrest⟩ := List.forall_mem_append.1 hmarker
  have hlen : (fromIndex ts k).ahead.length = c.length + rest.length := by
    rw [hahead, List.length_append]
  have htake : (fromIndex ts k).ahead.take c.length = c := by rw [hahead, List.take_left]
  have hnext : (fromIndex ts k).ahead[c.length]? = rest.head? := by
    rw [hahead, List.getElem?_append_right (Nat.le_refl _), Nat.sub_self, List.head?_eq_getElem?]
  refine ⟨c, hahead, ?_⟩
  cases rest with
  | nil =>
    -- all is passed, so the report is about the end
    refine ⟨by omega, ?_, fun _ m hm => ⟨?_, rfl⟩, fun _ hm => ⟨?_, rfl⟩, ?_, ?_, ?_, ?_⟩
    · intro t ht
      rw [hnext] at ht
      cases ht
    · exact endLine_fromIndex_of_find? hm
    · exact endLine_fromIndex_of_forall hm
    · rw [htake]
      exact hstuck.begun.exists_run_parse
    · intro hlt
      rw [List.length_nil] at hlen
      omega
    · rw [htake]
      exact hstuck.agrees.message.1
    · rw [htake]
      exact hstuck.agrees.message.2
  | cons t us =>
    have ht : t.isEof = false := hrest t List.mem_cons_self
    have htake' : (fromIndex ts k).ahead.take (c.length + 1) = c ++ [t] := by
      rw [hahead, List.take_length_add_append, List.take_succ_cons, List.take_zero]
    rw [List.length_cons] at hlen
    refine ⟨by omega, ?_, by omega, by omega, ?_, ?_, ?_, ?_⟩
    · intro u hu
      rw [hnext, List.head?_cons, Option.some.injEq] at hu
      subst hu
      exact ⟨rfl, Token.location_of_not_isEof ht⟩
    · rw [htake]
      exact hstuck.begun.exists_run_parse
    · intro _ rest sink
      rw [htake', List.append_assoc]
      exact run_parse_of_passes hpasses hc ht rest sink
    · rw [htake]
      exact hstuck.agrees.message.1
    · rw [htake]
      exact hstuck.agrees.message.2

/-- **A failed parse is reported once, about the first token that does not fit.** Wherever a parser
stands in whatever token list, if it gives no tree it adds one report to the sink and is left in
front of the token that the report is about. -/
theorem parse_reports_firstUnfit {ts : List Token} {k : Nat} {sink sink' : Diagnostics}
    {s' : TokenStream}
    (h : (Reporting.parse (fromIndex ts k)).run sink = ((none, s'), sink')) :
    ∃ j d, s' = fromIndex ts (k + j) ∧ sink' = sink ++ [d] ∧ FirstUnfit ts k j d := by
  obtain ⟨f, hparse, rfl⟩ := run_parse_eq_none_iff.1 h
  obtain ⟨x, rest, rfl, rfl, hread⟩ := parse_eq_error_iff.1 hparse
  obtain ⟨c, hahead, hunfit⟩ := firstUnfit_of_descent hread
  have hstands := fromIndex_add hunfit.le_length
  rw [hahead, List.drop_left] at hstands
  exact ⟨c.length, _, hstands.symm, rfl, hunfit⟩

/-- Of `1 ( true nil` a parser that has passed the `1` reports the `nil`. -/
theorem parse_reports_firstUnfit_unclosed :
    let ts : List Token :=
      [⟨.number (.unsigned 0), ['0'], 1⟩, ⟨.symbol .leftParen, ['('], 1⟩,
        ⟨.keyword .trueWord, "true".toList, 2⟩, ⟨.keyword .nilWord, "nil".toList, 3⟩, .eof 9]
    let report : Diagnostic := ⟨3, " at 'nil'".toList, "Expect ')' after expression.".toList⟩
    (Reporting.parse (fromIndex ts 1)).run [] = ((none, fromIndex ts 3), [report]) ∧
      ∃ j d, fromIndex ts 3 = fromIndex ts (1 + j) ∧ [report] = [] ++ [d] ∧
        FirstUnfit ts 1 j d := by
  intro ts report
  have hitem : (fromIndex ts 1).parse.1.expr? = none ∧
      (fromIndex ts 1).parse.1.diagnostics = [report] ∧
      (fromIndex ts 1).parse.2 = fromIndex ts 3 := by decide +kernel
  have h : (Reporting.parse (fromIndex ts 1)).run [] = ((none, fromIndex ts 3), [report]) := by
    rw [Reporting.run_parse, hitem.1, hitem.2.1, hitem.2.2, List.nil_append]
  exact ⟨h, parse_reports_firstUnfit h⟩

end Grammar

end Lox
