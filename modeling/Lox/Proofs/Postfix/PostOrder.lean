import Lox.Proofs.Postfix.Settling
import Lox.Proofs.RoundTrip.Characters
/-!
# The postfix order of arithmetic trees

The postfix order of flat text knows nothing of the tree: it has its own table
of how tightly the operators bind. On arithmetic trees of sources the table
agrees with the levels of the grammar, and the postfix order of the text is
the tree in post-order.
-/


namespace Lox

open Grammar Lexical Shunting

/-- **The tree in post-order**: operands before their binary operator, nothing for parentheses. A
unary operator stays in front. -/
def Expr.postOrder : Expr → Text
  | literal v => (literal v).infixText
  | group e => e.postOrder
  | unary o e => o.lexeme ++ e.postOrder
  | binary l o r => l.postOrder ++ r.postOrder ++ o.lexeme

/-- **The arithmetic trees**: the binary operators are the four of arithmetic, the unary ones are all
negations, and no string has the character of an operator or a parenthesis. -/
inductive Expr.IsArithmetic : Expr → Prop
  | literal {v : Literal} : (∀ t, v = .str t → ∀ c ∈ t, c ∉ ['+', '-', '*', '/', '(', ')']) →
      IsArithmetic (.literal v)
  | group {e : Expr} : IsArithmetic e → IsArithmetic (.group e)
  | unary {o : Token} {e : Expr} : o.data = .symbol .bang → IsArithmetic e →
      IsArithmetic (.unary o e)
  | binary {s : Symbol} {o : Token} {l r : Expr} : s ∈ [.plus, .minus, .star, .slash] →
      o.data = .symbol s → IsArithmetic l → IsArithmetic r → IsArithmetic (.binary l o r)

namespace Grammar

/-- How tightly the operators bind that stand outside of parentheses. -/
def Nonterminal.binding : Nonterminal → Nat
  | primary | unary => 3
  | factor => 2
  | _ => 1

theorem UnitRule.binding_le {n m : Nonterminal} (h : UnitRule n m) : n.binding ≤ m.binding := by
  cases h <;> decide

/-- **The table agrees with the grammar**: an arithmetic operator has the precedence of its
nonterminal, and its right operand the next one. -/
theorem BinaryRule.precedence? {n m : Nonterminal} {s : Symbol} (h : BinaryRule n s m)
    (hs : s ∈ [.plus, .minus, .star, .slash]) :
    ∃ c, s.spelling = [c] ∧ Lox.precedence? c = some n.binding ∧ m.binding = n.binding + 1 := by
  cases h with
  | minus | plus | star | slash => exact ⟨_, rfl, rfl, rfl⟩
  | _ => simp at hs

end Grammar

/-- No number is written with the character of an operator or a parenthesis. -/
theorem Number.not_mem_marks {m : Nat} {c : Char} (h : c ∈ (unsigned m).text) : c ∉ marks := by
  have hmarks : (marks.all fun d => d.isDigit = false ∧ d ≠ '.' ∧ d ∉ "inf".toList) = true := by
    decide
  intro hc
  obtain ⟨hdigit, hpoint, hinf⟩ := of_decide_eq_true (List.all_eq_true.1 hmarks c hc)
  exact not_mem_text_unsigned hdigit hpoint hinf h

/-- The text of a literal is copied. -/
theorem Literal.settles {v : Literal} (hv : v.Lexical)
    (hstr : ∀ t, v = .str t → ∀ c ∈ t, c ∉ marks) :
    Settles 3 (Expr.literal v).infixText (Expr.literal v).infixText := by
  refine .of_not_mark ?_
  cases v with
  | number n =>
    obtain ⟨m, rfl⟩ := hv
    exact fun c hc => Number.not_mem_marks hc
  | str t => exact hstr t rfl
  | boolean b =>
    have hword : ((Expr.literal (.boolean b)).infixText.all fun c => c ∉ marks) = true := by
      cases b <;> decide
    exact fun c hc => of_decide_eq_true (List.all_eq_true.1 hword c hc)
  | nil => exact fun c hc => absurd hc List.not_mem_nil

/-- An operator of a source is written as it is spelled. -/
theorem Token.IsSpelled.lexeme_eq {o : Token} (h : o.IsSpelled) {s : Symbol}
    (hs : o.data = .symbol s) : o.lexeme = s.spelling := by
  obtain ⟨s', hd, hlexeme⟩ := h
  cases hs.symm.trans hd
  exact hlexeme

/-- **Flat text of an arithmetic tree settles to the tree in post-order**, at the precedence of what
derives it. -/
theorem Grammar.Derives.settles {n : Nonterminal} {ts : List Token} {e : Expr}
    (h : Derives n ts e) (hl : e.Lexical) (ha : e.IsArithmetic) :
    Settles n.binding e.infixText e.postOrder := by
  induction h with
  | unit hu _ ih => exact (ih hl ha).mono hu.binding_le
  | @binary n m s _ _ t _ _ hrule ht _ _ ihl ihr =>
    obtain ⟨hll, ho, hlr⟩ := Expr.lexical_binary.1 hl
    cases ha with
    | @binary s' _ _ _ hs' ht' hal har =>
      cases ht.symm.trans ht'
      obtain ⟨c, hspelling, hprec, hbinding⟩ := hrule.precedence? hs'
      have hright := ihr hlr har
      rw [hbinding] at hright
      have hboth := (ihl hll hal).operation hprec hright
      rw [Expr.infixText, Expr.postOrder, ho.lexeme_eq ht, hspelling, List.append_assoc]
      exact hboth
  | unary _ ht _ ih =>
    obtain ⟨ho, hl⟩ := Expr.lexical_unary.1 hl
    cases ha with
    | unary hbang ha =>
      have hmark : Settles 3 ['!'] ['!'] := .of_not_mark (List.forall_mem_singleton.2 (by decide))
      rw [Expr.infixText, Expr.postOrder, ho.lexeme_eq hbang]
      exact hmark.append (ih hl ha)
  | @literal _ v _ =>
    cases ha with
    | literal hstr => exact Literal.settles (hl.literals v List.mem_cons_self) hstr
  | group _ _ _ ih =>
    cases ha with
    | group ha => exact (ih (Expr.lexical_group.1 hl) ha).group

/-- **On arithmetic trees of sources the postfix order of the flat text is the tree in
post-order.** -/
theorem polishText_eq_postOrder {source : Text} {e : Expr} (h : parseSource source = .ok e)
    (ha : e.IsArithmetic) : e.polishText = e.postOrder := by
  obtain ⟨ts, hder, -⟩ := exists_tokens_of_parseSource h
  have hsettles := hder.settles (lexical_of_parseSource h) ha
  exact hsettles.toPostfix_eq

/-- The two minuses of a grouping are let out before the star behind it comes. -/
theorem polishText_eq_postOrder_group :
    ∃ e, parseSource "!(\"a\" - \"b\" - nil) * true + \"c\"".toList = .ok e ∧ e.IsArithmetic ∧
      e.polishText = e.postOrder ∧ e.postOrder = "!ab--true*c+".toList := by
  let op (s : Symbol) : Token := ⟨.symbol s, s.spelling, 1⟩
  let str (t : Text) : Expr := .literal (.str t)
  let inner : Expr := .binary (.binary (str ['a']) (op .minus) (str ['b'])) (op .minus)
    (.literal .nil)
  let e : Expr := .binary (.binary (.unary (op .bang) (.group inner)) (op .star)
    (.literal (.boolean true))) (op .plus) (str ['c'])
  have h : parseSource "!(\"a\" - \"b\" - nil) * true + \"c\"".toList = .ok e :=
    parseSource_eq_ok_of_toOption (by decide +kernel)
  have hstr : ∀ t : Text, (∀ c ∈ t, c ∉ ['+', '-', '*', '/', '(', ')']) →
      (str t).IsArithmetic := by
    intro t ht
    refine .literal fun u hu => ?_
    cases hu
    exact ht
  have hinner : inner.IsArithmetic :=
    .binary (s := .minus) (by decide) rfl
      (.binary (s := .minus) (by decide) rfl (hstr _ (by simp)) (hstr _ (by simp)))
      (.literal nofun)
  have ha : e.IsArithmetic :=
    .binary (s := .plus) (by decide) rfl
      (.binary (s := .star) (by decide) rfl (.unary rfl (.group hinner)) (.literal nofun))
      (hstr _ (by simp))
  exact ⟨e, h, ha, polishText_eq_postOrder h ha, by decide⟩

end Lox
