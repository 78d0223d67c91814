import Lox.Proofs.Grammar.Recognition
import Lox.Proofs.Stream.Index
/-!
# What a parser accepts

The parser returns a tree exactly for what the grammar derives, and stops
where no binary operator follows; the tree is the only one.
-/


namespace Lox

namespace TokenStream

/-- A parser succeeds exactly when the reader is done, and stops where it stops. -/
theorem parse_eq_ok_iff {s s' : TokenStream} {e : Expr} :
    s.parse = (.ok e, s') ↔
      ∃ rest, s' = s.withAhead rest ∧ Descent (.level .comma) s.ahead (.ok (e, rest)) := by
  simp only [Descent.iff_run_eq, Task.run, parse, readExpression]
  cases h : readLevel .comma s.ahead with
  | done e' rest' lt =>
    constructor
    · intro hs
      cases hs
      exact ⟨rest', rfl, rfl⟩
    · rintro ⟨rest, rfl, hr⟩
      cases hr
      rfl
  | stuck x rest' le =>
    constructor
    · intro hs
      cases hs
    · rintro ⟨rest, -, hr⟩
      cases hr

/-- It fails exactly when the reader is stuck, and the error is about the token where it is. -/
theorem parse_eq_error_iff {s s' : TokenStream} {f : ParseError} :
    s.parse = (.error f, s') ↔
      ∃ x rest, f = .atToken x (s.withAhead rest).peek ∧ s' = s.withAhead rest ∧
        Descent (.level .comma) s.ahead (.error (x, rest)) := by
  simp only [Descent.iff_run_eq, Task.run, parse, readExpression]
  cases h : readLevel .comma s.ahead with
  | done e rest' lt =>
    constructor
    · intro hs
      cases hs
    · rintro ⟨x, rest, -, -, hr⟩
      cases hr
  | stuck x rest' le =>
    constructor
    · intro hs
      cases hs
      exact ⟨x, rest', rfl, rfl, rfl⟩
    · rintro ⟨x, rest, rfl, rfl, hr⟩
      cases hr
      rfl

end TokenStream

namespace Grammar

open TokenStream

/-- From any stream the parser returns `e` and passes `n` tokens exactly if those derive `e` and no
binary operator follows. -/
theorem parse_eq_ok_iff_derives {s : TokenStream} {n : Nat} {e : Expr}
    (hn : n ≤ s.ahead.length) :
    s.parse = (.ok e, s.withAhead (s.ahead.drop n)) ↔
      Derives .comma (s.ahead.take n) e ∧
        ∀ t, s.ahead[n]? = some t → ¬ IsBinaryOperator t := by
  have hstop : (∀ t, s.ahead[n]? = some t → ¬ IsBinaryOperator t) ↔
      ∀ t ∈ (s.ahead.drop n).head?, ¬ IsBinaryOperator t := by
    simp [List.head?_drop]
  rw [parse_eq_ok_iff, hstop]
  constructor
  · rintro ⟨rest, hrest, hd⟩
    cases withAhead_injective hrest
    obtain ⟨c, hc, hder, hop⟩ := descent_comma_iff.1 hd
    have htake : s.ahead.take n = c := by
      have hlen := congrArg List.length hc
      simp only [List.length_append, List.length_drop] at hlen
      rw [hc]
      exact List.take_left' (by omega)
    exact ⟨htake ▸ hder, hop⟩
  · rintro ⟨hder, hop⟩
    exact ⟨_, rfl, descent_comma_iff.2 ⟨_, (List.take_append_drop n _).symm, hder, hop⟩⟩

/-- **The parser accepts exactly its grammar and builds exactly its trees.** From any place `k` in
any token list it returns `e` and stops `n` tokens further on if and only if the first `n` of the
tokens up to the next end marker derive `e`, and the token behind them, if there is one, is no
binary operator. No token string has two derivations from one nonterminal. -/
theorem parse_iff_derives_and_unambiguous :
    (∀ (ts : List Token) (k n : Nat) (e : Expr),
      let s := fromIndex ts k
      (n ≤ s.ahead.length ∧ s.parse = (.ok e, fromIndex ts (k + n))) ↔
        (n ≤ s.ahead.length ∧ Derives .comma (s.ahead.take n) e ∧
          ∀ t, s.ahead[n]? = some t → ¬ IsBinaryOperator t)) ∧
      ∀ (m : Nonterminal) (c : List Token) (e e' : Expr),
        Derives m c e → Derives m c e' → e = e' := by
  refine ⟨fun ts k n e => ?_, fun m c e e' => derives_unique⟩
  intro s
  refine and_congr_right fun hn => ?_
  rw [fromIndex_add hn]
  exact parse_eq_ok_iff_derives hn

end Grammar

end Lox
