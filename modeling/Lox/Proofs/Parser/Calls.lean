import Lox.Proofs.Parser.Descent
import Lox.Proofs.Grammar.Sequence
/-!
# Calls of a parser

One call of a parser gives what the stream in front of it gives, and leaves
the parser where the stream is left. It reports behind what its sink already
holds. So a parser can be called again and again: what a call does is
determined by the tokens up to the next end marker and by the line on which
they end, whatever the calls before it have passed or reported.
-/


namespace Lox

namespace Parser

variable {p q : Parser} {ts rest : List Token}

/-! ## One expression -/

theorem reaches_expression (p : Parser) :
    p.Reaches p.expression.result.2.ahead p.expression.result.2 := by
  have h := p.follows_expression
  generalize (readExpression p.ahead).result = result, p.expression.result = o at h
  cases h with
  | done hq | stuck hq => rwa [hq.ahead]

/-- The expression of a parser is that of the stream in front of it. -/
theorem parse_stream (p : Parser) :
    p.stream.parse = (p.expression.result.1, p.expression.result.2.stream) := by
  have h := p.follows_expression
  rw [TokenStream.parse, ahead_stream]
  cases hr : readExpression p.ahead with
  | done e rest lt =>
    rw [hr, Reading.result_done] at h
    generalize p.expression.result = o at h
    cases h with
    | done hq => rw [hq.stream]; rfl
  | stuck x rest le =>
    rw [hr, Reading.result_stuck] at h
    generalize p.expression.result = o at h
    cases h with
    | stuck hq => rw [atToken_peek, hq.stream]; rfl

/-- One error at most is reported, behind what the sink holds. -/
theorem run_parse (p : Parser) (sink : Diagnostics) :
    p.parse.run sink =
      ((p.expression.result.1.expr?, p.expression.result.2),
        sink ++ p.expression.result.1.diagnostics) := by
  rw [parse]
  cases p.expression with
  | done e q lt =>
    have hnone : Item.diagnostics (.ok e) = [] := rfl
    rw [Outcome.result_done, hnone, List.append_nil]
    rfl
  | stuck error q le => rfl

/-- Seen from the stream, the parser does what is said of streams. -/
theorem run_reporting_parse (p : Parser) (sink : Diagnostics) :
    (Reporting.parse p.stream).run sink =
      (((p.parse.run sink).1.1, (p.parse.run sink).1.2.stream), (p.parse.run sink).2) := by
  rw [Reporting.run_parse, run_parse, parse_stream]

/-! ## A sequence -/

/-- What is parsed up to a semicolon is what is read up to it. -/
theorem follows_terminated (p : Parser) :
    p.Follows (readTerminated p.ahead).result p.terminated.result := by
  rw [result_terminated]
  cases hr : (readTerminated p.ahead).result with
  | ok done =>
    obtain ⟨t, ht, hd⟩ := Grammar.result_readTerminated.1 hr
    refine (follows_of_descent hd rfl).andThen fun q hq => ?_
    rw [consume_of_cons hq.ahead (Token.isSymbol_iff.2 ht)]
    exact .done (hq.trans (.next hq.ahead))
  | error stuck =>
    rcases Grammar.result_readTerminated_error.1 hr with hd | ⟨hx, hnot, e, hd⟩
    · exact (follows_of_descent hd rfl).andThen_error
    · obtain ⟨x, rest⟩ := stuck
      subst hx
      refine (follows_of_descent hd rfl).andThen fun q hq => ?_
      rw [consume_of_not (hq.ahead.symm ▸ hnot)]
      exact .stuck hq

/-- After an error a parser goes on where the stream does. -/
theorem reaches_resume (p : Parser) : p.Reaches (Lox.resume p.previous p.ahead) p.resume := by
  fun_induction resume p with
  | case1 p hend =>
    have hp := ahead_of_isAtEnd hend
    rw [hp]
    exact .refl hp
  | case2 p hend hstop =>
    rw [ahead_of_not_isAtEnd hend, Lox.resume, if_pos hstop]
    exact .refl (ahead_of_not_isAtEnd hend)
  | case3 p hend hstop ih =>
    have hp := ahead_of_not_isAtEnd hend
    rw [hp, Lox.resume, if_neg hstop]
    rw [previous_next_of_cons hp] at ih
    exact Reaches.trans (.next hp) ih

theorem reaches_synchronize (p : Parser) :
    p.Reaches (Lox.synchronize p.ahead) p.synchronize := by
  have h := reaches_resume p.next
  cases hp : p.ahead with
  | nil =>
    rw [next_of_nil hp, hp] at h
    rw [synchronize, next_of_nil hp]
    exact h
  | cons t ts =>
    rw [previous_next_of_cons hp, ahead_next_of_cons hp] at h
    exact Reaches.trans (.next hp) h

/-- The end of the list is the same from wherever it is reached. -/
theorem Reaches.past_left (h : p.Reaches rest q) : q.past q.left = p.past p.left := by
  obtain ⟨c, hc, rfl⟩ := h
  rw [left, ahead_past hc, past_past, left, hc, List.length_append]

/-- An item that succeeds, and the stream behind its semicolon. -/
theorem items_of_terminated_ok {e : Expr} (h : p.terminated.result = (.ok e, q)) :
    p.stream.items = .ok e :: q.stream.items ∧ p.Reaches q.ahead q := by
  have hf := p.follows_terminated
  rw [h] at hf
  generalize hr : (readTerminated p.ahead).result = result at hf
  cases hf with
  | done hq =>
    refine ⟨TokenStream.items_eq_ok_cons_iff.2 ⟨_, hr, ?_⟩, hq.ahead ▸ hq⟩
    rw [hq.stream]

/-- An item that fails, and the stream where parsing goes on. -/
theorem items_of_terminated_error {error : ParseError} (hend : ¬ p.isAtEnd = true)
    (h : p.terminated.result = (.error error, q)) :
    p.stream.items = .error error :: q.synchronize.stream.items ∧
      p.Reaches q.synchronize.ahead q.synchronize := by
  have hf := p.follows_terminated
  rw [h] at hf
  generalize hr : (readTerminated p.ahead).result = result at hf
  cases hf with
  | stuck hq =>
    have hgo := hq.trans (hq.ahead ▸ reaches_synchronize q)
    refine ⟨?_, hgo.ahead ▸ hgo⟩
    rw [TokenStream.items_of_result_error (mt ahead_eq_nil_iff.1 hend) hr, hgo.stream,
      atToken_peek, hq.stream]

/-- **A sequence is that of the stream in front of the parser.** Its errors are reported behind
what the sink holds, and the parser is left in front of the end marker. -/
theorem run_parseSequence (p : Parser) (sink : Diagnostics) :
    p.parseSequence.run sink =
      ((p.stream.expressions, p.past p.left),
        sink ++ p.stream.errors.map ParseError.diagnostic) := by
  -- by the recursion of the parser: one item at a time
  fun_induction parseSequence p generalizing sink with
  | case1 p hend =>
    have hp := ahead_of_isAtEnd hend
    rw [TokenStream.expressions, TokenStream.errors, TokenStream.items_of_nil hp, left, hp,
      List.filterMap_nil, List.filterMap_nil, List.map_nil, List.append_nil]
    rfl
  | case2 p hend e q lt h ih =>
    obtain ⟨hitems, hq⟩ := items_of_terminated_ok (congrArg Outcome.result h)
    have hexpressions : p.stream.expressions = e :: q.stream.expressions := by
      rw [TokenStream.expressions, hitems]
      rfl
    have herrors : p.stream.errors = q.stream.errors := by
      rw [TokenStream.errors, hitems]
      rfl
    rw [StateT.run_bind, ih, hexpressions, herrors, hq.past_left]
    rfl
  | case3 p hend error q le h ih =>
    obtain ⟨hitems, hq⟩ := items_of_terminated_error hend (congrArg Outcome.result h)
    have hexpressions : p.stream.expressions = q.synchronize.stream.expressions := by
      rw [TokenStream.expressions, hitems]
      rfl
    have herrors : p.stream.errors = error :: q.synchronize.stream.errors := by
      rw [TokenStream.errors, hitems]
      rfl
    rw [hexpressions, herrors, ← hq.past_left, List.map_cons, List.append_cons]
    exact ih (sink ++ [error.diagnostic])

theorem reaches_past_left (p : Parser) : p.Reaches [] (p.past p.left) :=
  ⟨p.ahead, (List.append_nil _).symm, rfl⟩

/-- Here too the parser does what is said of streams. -/
theorem run_reporting_parseSequence (p : Parser) (sink : Diagnostics) :
    (Reporting.parseSequence p.stream).run sink =
      (((p.parseSequence.run sink).1.1, (p.parseSequence.run sink).1.2.stream),
        (p.parseSequence.run sink).2) := by
  rw [Reporting.run_parseSequence, run_parseSequence, p.reaches_past_left.stream]
  rfl

/-! ## One call -/

theorem run_call_parse (p : Parser) (sink : Diagnostics) :
    (p.call .parse).run sink =
      ((.expression p.expression.result.1.expr?, p.expression.result.2),
        sink ++ p.expression.result.1.diagnostics) := by
  rw [call, StateT.run_bind, run_parse]
  rfl

theorem run_call_parseSequence (p : Parser) (sink : Diagnostics) :
    (p.call .parseSequence).run sink =
      ((.sequence p.stream.expressions, p.past p.left),
        sink ++ p.stream.errors.map ParseError.diagnostic) := by
  rw [call, StateT.run_bind, run_parseSequence]
  rfl

theorem reply_parse (p : Parser) :
    p.reply .parse =
      (⟨.expression p.expression.result.1.expr?, p.expression.result.1.diagnostics⟩,
        p.expression.result.2) := by
  rw [reply, run_call_parse]
  rfl

theorem reply_parseSequence (p : Parser) :
    p.reply .parseSequence =
      (⟨.sequence p.stream.expressions, p.stream.errors.map ParseError.diagnostic⟩,
        p.past p.left) := by
  rw [reply, run_call_parseSequence]
  rfl

/-- **A call gives the same whatever its sink holds**, and reports behind it. -/
theorem run_call (p : Parser) (c : Call) (sink : Diagnostics) :
    (p.call c).run sink =
      (((p.reply c).1.answer, (p.reply c).2), sink ++ (p.reply c).1.reports) := by
  cases c with
  | parse => rw [run_call_parse, reply_parse]
  | parseSequence => rw [run_call_parseSequence, reply_parseSequence]

/-- A call passes some of the tokens ahead. -/
theorem reaches_reply (p : Parser) (c : Call) : p.Reaches (p.reply c).2.ahead (p.reply c).2 := by
  cases c with
  | parse =>
    rw [reply_parse]
    exact p.reaches_expression
  | parseSequence =>
    rw [reply_parseSequence]
    have h := p.reaches_past_left
    exact h.ahead.symm ▸ h

/-- **What a call does is determined by the stream in front of the parser.** -/
theorem reply_congr (h : p.stream = q.stream) (c : Call) :
    (p.reply c).1 = (q.reply c).1 ∧ (p.reply c).2.stream = (q.reply c).2.stream := by
  cases c with
  | parse =>
    have hparse := p.parse_stream
    rw [h, parse_stream, Prod.mk.injEq] at hparse
    rw [reply_parse, reply_parse, hparse.1, hparse.2]
    exact ⟨rfl, rfl⟩
  | parseSequence =>
    rw [reply_parseSequence, reply_parseSequence, p.reaches_past_left.stream,
      q.reaches_past_left.stream, h]
    exact ⟨rfl, rfl⟩

theorem Reaches.tokens_eq (h : p.Reaches rest q) : q.tokens = p.tokens := by
  obtain ⟨c, -, rfl⟩ := h
  rfl

theorem Reaches.current_le (h : p.Reaches rest q) : p.current ≤ q.current := by
  obtain ⟨c, -, rfl⟩ := h
  exact Nat.le_add_right _ _

/-- Each token ahead is either passed or left. -/
theorem Reaches.current_add (h : p.Reaches rest q) :
    q.current + rest.length = p.current + p.left := by
  obtain ⟨c, hc, rfl⟩ := h
  rw [current_past, left, hc, List.length_append, Nat.add_assoc]

/-! ## At the end -/

/-- What a call gives at the end of the tokens. -/
def replyAtEnd (line : Nat) : Call → Reply
  | .parse => ⟨.expression none, [⟨line, " at end".toList, "Expect expression.".toList⟩]⟩
  | .parseSequence => ⟨.sequence [], []⟩

theorem reply_of_nil (h : p.ahead = []) (c : Call) :
    (p.reply c).1 = replyAtEnd p.stream.endLine c := by
  cases c with
  | parse =>
    have hf : p.Follows (.error (.expression, [])) p.expression.result :=
      follows_of_descent (Descent.level_nil .comma) h
    rw [reply_parse]
    generalize p.expression.result = o at hf
    cases hf with
    | stuck hq =>
      rw [atToken_peek, hq.stream]
      rfl
  | parseSequence =>
    rw [reply_parseSequence, TokenStream.expressions, TokenStream.errors,
      TokenStream.items_of_nil h]
    rfl

/-! ## Calls one after another -/

theorem replies_append (p : Parser) (cs ds : List Call) :
    p.replies (cs ++ ds) =
      ((p.replies cs).1 ++ ((p.replies cs).2.replies ds).1, ((p.replies cs).2.replies ds).2) := by
  induction cs generalizing p with
  | nil => rfl
  | cons c cs ih => simp only [List.cons_append, replies, ih]

theorem length_replies (p : Parser) (cs : List Call) : (p.replies cs).1.length = cs.length := by
  induction cs generalizing p with
  | nil => rfl
  | cons c cs ih => rw [replies, List.length_cons, List.length_cons, ih]

/-- The reply to a call, among those to calls before and after it. -/
theorem getElem?_replies (p : Parser) (before : List Call) (c : Call) (after : List Call) :
    (p.replies (before ++ c :: after)).1[before.length]? =
      some ((p.replies before).2.reply c).1 := by
  have hlen : (p.replies before).1.length ≤ before.length := Nat.le_of_eq (p.length_replies before)
  rw [replies_append, List.getElem?_append_right hlen, length_replies, Nat.sub_self]
  rfl

/-- Calls pass some of the tokens ahead. -/
theorem reaches_replies (p : Parser) (cs : List Call) :
    p.Reaches (p.replies cs).2.ahead (p.replies cs).2 := by
  induction cs generalizing p with
  | nil => exact .refl rfl
  | cons c cs ih => exact (p.reaches_reply c).trans (ih (p.reply c).2)

theorem Reaches.ahead_eq_nil (h : p.Reaches rest q) (hp : p.ahead = []) : q.ahead = [] := by
  obtain ⟨c, hc, rfl⟩ := h
  rw [ahead_past hc]
  exact (List.append_eq_nil_iff.1 (hc.symm.trans hp)).2

/-- After a sequence no token is left, whatever is called then. -/
theorem ahead_replies_of_mem {cs : List Call} (h : .parseSequence ∈ cs) :
    (p.replies cs).2.ahead = [] := by
  induction cs generalizing p with
  | nil => cases h
  | cons c cs ih =>
    cases h with
    | head =>
      have hend : (p.reply .parseSequence).2.ahead = [] := by
        rw [reply_parseSequence]
        exact p.reaches_past_left.ahead
      exact ((p.reply .parseSequence).2.reaches_replies cs).ahead_eq_nil hend
    | tail _ hmem => exact ih hmem

/-! ## A parser that is resumed -/

/-- The tokens of a list from number `k` up to the first end marker, and one end marker on the line
where the list ends. -/
def remaining (ts : List Token) (k : Nat) : List Token :=
  (ts.takeWhile fun t => !t.isEof).drop k ++ [.eof (TokenStream.endLineOf ts)]

/-- A new parser over them is in front of the stream in which the parser has arrived. -/
theorem stream_start_remaining (h : (start ts).Reaches p.ahead p) :
    (start (remaining ts p.current)).stream = p.stream := by
  obtain ⟨c, hc, hp⟩ := h
  have hcurrent : p.current = c.length := by
    rw [hp, current_past]
    exact Nat.zero_add _
  have heof : ∀ t ∈ p.ahead, t.isEof = false := fun t => TokenStream.not_isEof_of_mem_ahead
  have htake : (ts.takeWhile fun t => !t.isEof) = c ++ p.ahead := hc
  have hstream : p.stream = (start ts).stream.withAhead p.ahead := Reaches.stream ⟨c, hc, hp⟩
  rw [stream_start, remaining, htake, hcurrent, List.drop_left,
    TokenStream.ofTokens_append_eof heof, hstream]
  rfl

/-- What the call `c` does on a parser `p` of the list `ts` that goes on where it is. -/
structure Resumes (ts : List Token) (p : Parser) (c : Call) : Prop where
  /-- The parser keeps its list. -/
  tokens_eq : (p.reply c).2.tokens = ts
  /-- It does not go back. -/
  current_le : p.current ≤ (p.reply c).2.current
  /-- It does not pass the first end marker, nor the end of the list. -/
  le_end : (p.reply c).2.current ≤ (ts.takeWhile fun t => !t.isEof).length
  /-- The result and the reports are those of a new parser over the remaining tokens. -/
  reply_eq : (p.reply c).1 = ((start (remaining ts p.current)).reply c).1
  /-- That parser passes as many tokens. -/
  current_eq :
    (p.reply c).2.current = p.current + ((start (remaining ts p.current)).reply c).2.current
  /-- With a sink that holds some reports the result is the same, and the reports are added. -/
  run_eq : ∀ sink, (p.call c).run sink =
    (((p.reply c).1.answer, (p.reply c).2), sink ++ (p.reply c).1.reports)

/-- A parser that has arrived somewhere in its list resumes. -/
theorem Reaches.resumes (h : (start ts).Reaches p.ahead p) (c : Call) : Resumes ts p c := by
  have hnext := p.reaches_reply c
  have hfresh := (start (remaining ts p.current)).reaches_reply c
  -- the new parser is in front of the same stream, and so it passes the same tokens
  have hstream := stream_start_remaining h
  obtain ⟨hreply, hrest⟩ := reply_congr hstream c
  have hleft : (start (remaining ts p.current)).left = p.left :=
    congrArg (fun s => s.ahead.length) hstream
  have hlength := congrArg (fun s => s.ahead.length) hrest
  have hadd := hnext.current_add
  have haddFresh := hfresh.current_add
  have haddStart := (h.trans hnext).current_add
  have hzero : ∀ us : List Token, (start us).current = 0 := fun us => rfl
  rw [hzero] at haddFresh haddStart
  refine ⟨hnext.tokens_eq.trans h.tokens_eq, hnext.current_le, ?_, hreply.symm, ?_, p.run_call c⟩
  · have hend : (start ts).left = (ts.takeWhile fun t => !t.isEof).length := rfl
    omega
  · simp only [ahead_stream] at hlength
    omega

/-- **A parser can be resumed, and what it does depends only on what lies ahead.** Whatever calls
are made on a parser, before and after: each call gives the result and the reports of a new parser
over the tokens from the current one to the first end marker, closed by an end marker on the line
where the list ends. The parser never goes back and never passes the first end marker. After a
sequence nothing is left: a sequence then gives nothing and reports nothing, and an expression is
missed at the end. -/
theorem replies_resume (ts : List Token) (before : List Call) (c : Call) (after : List Call) :
    let p := ((start ts).replies before).2
    ((start ts).replies (before ++ c :: after)).1[before.length]? = some (p.reply c).1 ∧
      Resumes ts p c ∧
      (.parseSequence ∈ before → (p.reply c).1 = replyAtEnd (TokenStream.endLineOf ts) c) := by
  intro p
  have hp : (start ts).Reaches p.ahead p := (start ts).reaches_replies before
  refine ⟨(start ts).getElem?_replies before c after, hp.resumes c, fun hmem => ?_⟩
  rw [reply_of_nil (ahead_replies_of_mem hmem), hp.stream]
  rfl

/-- After an expression the parser is in front of a token that does not fit, and stays there. -/
example :
    let unfit : Diagnostic := ⟨1, " at ')'".toList, "Expect expression.".toList⟩
    ((start (scan "1 * 2 ) 3".toList).tokens).replies [.parse, .parse, .parse]).1.map
      Reply.reports = [[], [unfit], [unfit]] := by
  decide +kernel

end Parser

end Lox
