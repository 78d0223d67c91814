import Lox.Proofs.Grammar.Yield
import Lox.Proofs.Parser.Calls
/-!
# The flat text of what was parsed

A parser that gives a tree has passed some tokens, and these derive the tree.
So the flat text of the tree is what the passed tokens are rendered as, one
after another; nothing of it comes from the lexemes of literals and
parentheses, which the tree does not keep.
-/


namespace Lox

open Grammar

namespace Parser

variable {p q : Parser} {e : Expr} {sink sink' : Diagnostics}

/-- **A tree is derived by the tokens that were passed for it**, and nothing is reported. -/
theorem exists_derives_of_run_parse (h : p.parse.run sink = ((some e, q), sink')) :
    ∃ c, p.ahead = c ++ q.ahead ∧ q = p.past c.length ∧ Derives .comma c e ∧ sink' = sink := by
  rw [run_parse] at h
  have hf := p.follows_expression
  generalize hr : (readExpression p.ahead).result = result at hf
  generalize p.expression.result = o at h hf
  cases hf with
  | stuck => cases h
  | @done e' rest q' hq =>
    cases h
    obtain ⟨c, hc, hder, -⟩ := descent_comma_iff.1 (Descent.iff_run_eq.2 hr)
    obtain ⟨d, hd, rfl⟩ := hq
    obtain rfl : c = d := List.append_cancel_right (hc.symm.trans hd)
    refine ⟨c, ?_, rfl, hder, List.append_nil sink⟩
    rw [ahead_past hd, ← hd]

/-- **Flat text is the consumed tokens.** A parser that gives a tree has passed some tokens of its
list, each of them an operator, a parenthesis or a literal, and the flat text of the tree is what
these tokens are rendered as: each once, and in the order in which they stand in the list. -/
theorem infixText_of_run_parse (h : p.parse.run sink = ((some e, q), sink')) :
    ∃ c rest, p.tokens.drop p.current = c ++ rest ∧ q = ⟨p.tokens, p.current + c.length⟩ ∧
      (∀ t ∈ c, IsTerminal t) ∧ e.infixText = (c.map Token.rendered).flatten := by
  obtain ⟨c, hc, hq, hder, -⟩ := exists_derives_of_run_parse h
  obtain ⟨rest, hrest⟩ := List.takeWhile_prefix (fun t : Token => !t.isEof)
    (l := p.tokens.drop p.current)
  refine ⟨c, q.ahead ++ rest, ?_, hq, hder.isTerminal, hder.infixText_eq⟩
  rw [← List.append_assoc, ← hc]
  exact hrest.symm

/-- Tokens made by hand: the lexemes of the operators are kept, those of the parentheses, of the
string and of the nil are not, and the parser stops behind the closing parenthesis. -/
theorem infixText_of_run_parse_unfitting :
    let str : Token := ⟨.str ['a', ' '], ['b'], 7⟩
    let passed : List Token := [⟨.symbol .minus, "neg".toList, 9⟩,
      ⟨.symbol .leftParen, ['['], 2⟩, str, ⟨.symbol .star, "times".toList, 1⟩,
      ⟨.keyword .nilWord, "nothing".toList, 1⟩, ⟨.symbol .rightParen, [']'], 3⟩]
    ∃ e q, (start (passed ++ [str])).parse.run [] = ((some e, q), []) ∧
      q = ⟨passed ++ [str], 6⟩ ∧ e.infixText = "neg(a times)".toList := by
  intro str passed
  have hparse : ((start (passed ++ [str])).parse.run []).1.1.isSome = true ∧
      ((start (passed ++ [str])).parse.run []).1.2.current = 6 ∧
      ((start (passed ++ [str])).parse.run []).2 = [] := by decide +kernel
  generalize hrun : (start (passed ++ [str])).parse.run [] = outcome at hparse
  obtain ⟨⟨e, q⟩, sink⟩ := outcome
  obtain ⟨he, hq, hsink⟩ := hparse
  obtain ⟨e, rfl⟩ := Option.isSome_iff_exists.1 he
  obtain ⟨c, rest, hc, rfl, -, htext⟩ := infixText_of_run_parse hrun
  have hlen : c.length = 6 := (Nat.zero_add _).symm.trans hq
  have htake : c = passed := (List.append_inj hc hlen.symm).1.symm
  subst htake
  exact ⟨e, _, Prod.ext rfl hsink, rfl, htext⟩

end Parser

end Lox
