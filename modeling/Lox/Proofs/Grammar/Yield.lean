import Lox.Proofs.Grammar.Rules
import Lox.Proofs.Tree.Parts
/-!
# What a derivation keeps of its tokens

Every token of a derived string is in the tree: a literal as its value, an
operator as the token it is, the parentheses as a grouping. So the literals of
the tree are those of the tokens, in order, a change of tokens that leaves
their data alone changes the tree in its operators only, and the flat text of
the tree is what the tokens are rendered as.
-/


namespace Lox

/-- What flat text holds for a token: the value of a literal, nothing for nil, and the lexeme of
an operator, while a parenthesis is one whatever its lexeme is. -/
def Token.rendered (t : Token) : Text :=
  match t.data with
  | .symbol .leftParen => ['(']
  | .symbol .rightParen => [')']
  | .symbol _ => t.lexeme
  | .number n => n.text
  | .str v => v
  | .keyword .trueWord => "true".toList
  | .keyword .falseWord => "false".toList
  | _ => []

/-- The value of the literal that a token is. -/
def Token.literal? (t : Token) : Option Literal := t.data.literal?

theorem Token.literal?_of_symbol {t : Token} {s : Symbol} (h : t.data = .symbol s) :
    t.literal? = none := by
  rw [Token.literal?, h]
  rfl

namespace Grammar

/-- A token that occurs in a rule is a symbol or stands for a literal. -/
theorem IsTerminal.symbol_or_literal {t : Token} (h : IsTerminal t) :
    (∃ s, t.data = .symbol s) ∨ ∃ v, LiteralRule t.data v := by
  cases h with
  | binary _ hs => exact .inl ⟨_, hs⟩
  | unary _ hs => exact .inl ⟨_, hs⟩
  | literal hv => exact .inr ⟨_, hv⟩
  | leftParen ho => exact .inl ⟨_, ho⟩
  | rightParen hc => exact .inl ⟨_, hc⟩

theorem LiteralRule.literal?_eq {t : Token} {v : Literal} (h : LiteralRule t.data v) :
    t.literal? = some v :=
  TokenData.literal?_eq_some_iff.2 h

/-- A token that stands for a literal is rendered as the literal is. -/
theorem LiteralRule.rendered {t : Token} {v : Literal} (h : LiteralRule t.data v) :
    (Expr.literal v).infixText = t.rendered := by
  obtain ⟨d, x, k⟩ := t
  cases h <;> rfl

/-- An operator is rendered as its lexeme. -/
theorem BinaryRule.rendered {n m : Nonterminal} {s : Symbol} {t : Token} (h : BinaryRule n s m)
    (ht : t.data = .symbol s) : t.rendered = t.lexeme := by
  rw [Token.rendered, ht]
  cases h <;> rfl

theorem UnaryRule.rendered {s : Symbol} {t : Token} (h : UnaryRule s)
    (ht : t.data = .symbol s) : t.rendered = t.lexeme := by
  rw [Token.rendered, ht]
  cases h <;> rfl

namespace Derives

variable {n : Nonterminal} {c : List Token} {e : Expr}

/-- **The literals of the tree are those of the tokens.** -/
theorem literals_eq (h : Derives n c e) :
    e.literals = c.filterMap Token.literal? := by
  induction h with
  | unit _ _ ih => exact ih
  | binary _ ht _ _ ihl ihr =>
    rw [Expr.literals, List.filterMap_append,
      List.filterMap_cons_none (Token.literal?_of_symbol ht), ihl, ihr]
  | unary _ ht _ ih =>
    rw [Expr.literals, List.filterMap_cons_none (Token.literal?_of_symbol ht), ih]
  | literal hv =>
    rw [Expr.literals, List.filterMap_cons_some hv.literal?_eq, List.filterMap_nil]
  | group ho hc _ ih =>
    rw [Expr.literals, List.filterMap_append,
      List.filterMap_cons_none (Token.literal?_of_symbol ho),
      List.filterMap_cons_none (Token.literal?_of_symbol hc), List.filterMap_nil,
      List.append_nil, ih]

/-- The operators of the tree are among the tokens, and are rendered as their lexemes. -/
theorem mem_of_mem_operators (h : Derives n c e) :
    ∀ o ∈ e.operators, o ∈ c ∧ (∃ s, o.data = .symbol s) ∧ o.rendered = o.lexeme := by
  induction h with
  | unit _ _ ih => exact ih
  | binary hs ht _ _ ihl ihr =>
    refine List.forall_mem_append.2 ⟨fun o ho => ?_, List.forall_mem_cons.2 ⟨?_, fun o ho => ?_⟩⟩
    · exact ⟨List.mem_append_left _ (ihl o ho).1, (ihl o ho).2⟩
    · exact ⟨List.mem_append_right _ List.mem_cons_self, ⟨_, ht⟩, hs.rendered ht⟩
    · exact ⟨List.mem_append_right _ (List.mem_cons_of_mem _ (ihr o ho).1), (ihr o ho).2⟩
  | unary hs ht _ ih =>
    refine List.forall_mem_cons.2 ⟨?_, fun o ho => ?_⟩
    · exact ⟨List.mem_cons_self, ⟨_, ht⟩, hs.rendered ht⟩
    · exact ⟨List.mem_cons_of_mem _ (ih o ho).1, (ih o ho).2⟩
  | literal => exact fun o ho => absurd ho List.not_mem_nil
  | group _ _ _ ih =>
    intro o ho
    exact ⟨List.mem_append_left _ (List.mem_cons_of_mem _ (ih o ho).1), (ih o ho).2⟩

/-- **The grammar looks at the data alone**: tokens with the same data derive the same tree, but for
its operator tokens. -/
theorem map (h : Derives n c e) (f : Token → Token) (hf : ∀ t ∈ c, (f t).data = t.data) :
    Derives n (c.map f) (e.mapOperators f) := by
  induction h with
  | unit hu _ ih => exact .unit hu (ih hf)
  | binary hs ht _ _ ihl ihr =>
    obtain ⟨hl, hr⟩ := List.forall_mem_append.1 hf
    obtain ⟨ho, hr⟩ := List.forall_mem_cons.1 hr
    rw [List.map_append, List.map_cons]
    exact .binary hs (ho.trans ht) (ihl hl) (ihr hr)
  | unary hs ht _ ih =>
    obtain ⟨ho, hf⟩ := List.forall_mem_cons.1 hf
    exact .unary hs (ho.trans ht) (ih hf)
  | literal hv => exact .literal (List.forall_mem_singleton.1 hf ▸ hv)
  | group ho hc _ ih =>
    obtain ⟨hf, hclose⟩ := List.forall_mem_append.1 hf
    obtain ⟨hopen, hf⟩ := List.forall_mem_cons.1 hf
    rw [List.map_append, List.map_cons]
    exact .group (hopen.trans ho) ((List.forall_mem_singleton.1 hclose).trans hc) (ih hf)

/-- **Flat text is the rendered tokens**, each once and in their order. -/
theorem infixText_eq (h : Derives n c e) : e.infixText = (c.map Token.rendered).flatten := by
  induction h with
  | unit _ _ ih => exact ih
  | binary hs ht _ _ ihl ihr =>
    rw [Expr.infixText, List.map_append, List.map_cons, List.flatten_append, List.flatten_cons,
      hs.rendered ht, ihl, ihr, List.append_assoc]
  | unary hs ht _ ih =>
    rw [Expr.infixText, List.map_cons, List.flatten_cons, hs.rendered ht, ih]
  | literal hv =>
    rw [hv.rendered, List.map_cons, List.map_nil, List.flatten_cons, List.flatten_nil,
      List.append_nil]
  | @group opening closing ts e ho hc _ ih =>
    have hopen : opening.rendered = ['('] := by rw [Token.rendered, ho]
    have hclose : closing.rendered = [')'] := by rw [Token.rendered, hc]
    rw [Expr.infixText, List.map_append, List.map_cons, List.flatten_append, List.flatten_cons,
      hopen, List.map_cons, List.map_nil, List.flatten_cons, List.flatten_nil, hclose, ih]
    rfl

end Derives

end Grammar

end Lox
