import Lox.Expr.Level
import Lox.Expr
/-!
# The expression grammar

The grammar as a derivation relation: a nonterminal derives a token string
together with the tree that the derivation builds. The rules are listed one
by one, apart from the tables of `Level` that the reader works with; a rule
looks at the data of a token and at nothing else of it, so tokens made by
hand derive what their data says, whatever their lexemes are.
-/


namespace Lox

namespace Grammar

/-- A nonterminal, loosest first. -/
inductive Nonterminal
  | comma
  | equality
  | comparison
  | term
  | factor
  | unary
  | primary
deriving DecidableEq

/-- The rules `n := m` that lead from a nonterminal to the next tighter one. -/
inductive UnitRule : Nonterminal → Nonterminal → Prop
  | comma : UnitRule .comma .equality
  | equality : UnitRule .equality .comparison
  | comparison : UnitRule .comparison .term
  | term : UnitRule .term .factor
  | factor : UnitRule .factor .unary
  | unary : UnitRule .unary .primary

/-- The rules `n := n s m` for the binary operators. That the left operand is of the same
nonterminal makes the operators associate to the left. -/
inductive BinaryRule : Nonterminal → Symbol → Nonterminal → Prop
  | comma : BinaryRule .comma .comma .equality
  | bangEqual : BinaryRule .equality .bangEqual .comparison
  | equalEqual : BinaryRule .equality .equalEqual .comparison
  | greater : BinaryRule .comparison .greater .term
  | greaterEqual : BinaryRule .comparison .greaterEqual .term
  | less : BinaryRule .comparison .less .term
  | lessEqual : BinaryRule .comparison .lessEqual .term
  | minus : BinaryRule .term .minus .factor
  | plus : BinaryRule .term .plus .factor
  | star : BinaryRule .factor .star .unary
  | slash : BinaryRule .factor .slash .unary

/-- The rules `unary := s unary`. -/
inductive UnaryRule : Symbol → Prop
  | bang : UnaryRule .bang
  | minus : UnaryRule .minus

/-- The rules `primary := t` for one token, with the literal that the token stands for. -/
inductive LiteralRule : TokenData → Literal → Prop
  | falseWord : LiteralRule (.keyword .falseWord) (.boolean false)
  | trueWord : LiteralRule (.keyword .trueWord) (.boolean true)
  | nilWord : LiteralRule (.keyword .nilWord) .nil
  | number (n : Number) : LiteralRule (.number n) (.number n)
  | str (s : Text) : LiteralRule (.str s) (.str s)

/-- **The derivations**: `Derives n ts e` if the nonterminal `n` derives the token string `ts`,
building the tree `e`. -/
inductive Derives : Nonterminal → List Token → Expr → Prop
  /-- `n := m` builds what `m` builds. -/
  | unit {n m : Nonterminal} {ts : List Token} {e : Expr} :
      UnitRule n m → Derives m ts e → Derives n ts e
  /-- `n := n s m` joins the two operands by the operator token. -/
  | binary {n m : Nonterminal} {s : Symbol} {ls rs : List Token} {t : Token} {l r : Expr} :
      BinaryRule n s m → t.data = .symbol s → Derives n ls l → Derives m rs r →
      Derives n (ls ++ t :: rs) (.binary l t r)
  /-- `unary := s unary` puts the operator token in front. -/
  | unary {s : Symbol} {ts : List Token} {t : Token} {e : Expr} :
      UnaryRule s → t.data = .symbol s → Derives .unary ts e →
      Derives .unary (t :: ts) (.unary t e)
  /-- A literal keeps the decoded value. -/
  | literal {t : Token} {v : Literal} : LiteralRule t.data v → Derives .primary [t] (.literal v)
  /-- `primary := '(' comma ')'` keeps the parentheses as a grouping. -/
  | group {opening closing : Token} {ts : List Token} {e : Expr} :
      opening.data = .symbol .leftParen → closing.data = .symbol .rightParen →
      Derives .comma ts e → Derives .primary (opening :: ts ++ [closing]) (.group e)

/-- **The derivations of a sequence**: blocks, each a derived token string followed by one
semicolon. A block is listed with the tree that it derives. -/
inductive DerivesSequence : List Token → List (List Token × Expr) → Prop
  | nil : DerivesSequence [] []
  | cons {ts rest : List Token} {t : Token} {e : Expr} {bs : List (List Token × Expr)} :
      Derives .comma ts e → t.data = .symbol .semicolon → DerivesSequence rest bs →
      DerivesSequence (ts ++ t :: rest) ((ts, e) :: bs)

/-- A token that stands for a literal is no symbol. -/
theorem LiteralRule.ne_symbol {d : TokenData} {v : Literal} (h : LiteralRule d v) (s : Symbol) :
    d ≠ .symbol s := by
  cases h <;> simp

/-- The tokens that occur in rules. -/
inductive IsTerminal (t : Token) : Prop
  | binary {n m : Nonterminal} {s : Symbol} : BinaryRule n s m → t.data = .symbol s → IsTerminal t
  | unary {s : Symbol} : UnaryRule s → t.data = .symbol s → IsTerminal t
  | literal {v : Literal} : LiteralRule t.data v → IsTerminal t
  | leftParen : t.data = .symbol .leftParen → IsTerminal t
  | rightParen : t.data = .symbol .rightParen → IsTerminal t

/-- No other token is derived. -/
theorem Derives.isTerminal {n : Nonterminal} {c : List Token} {e : Expr} (h : Derives n c e) :
    ∀ t ∈ c, IsTerminal t := by
  induction h with
  | unit _ _ ih => exact ih
  | binary hrule hs _ _ ihl ihr =>
    exact List.forall_mem_append.2 ⟨ihl, List.forall_mem_cons.2 ⟨.binary hrule hs, ihr⟩⟩
  | unary hrule hs _ ih => exact List.forall_mem_cons.2 ⟨.unary hrule hs, ih⟩
  | literal hv => exact List.forall_mem_singleton.2 (.literal hv)
  | group ho hc _ ih =>
    exact List.forall_mem_append.2 ⟨List.forall_mem_cons.2 ⟨.leftParen ho, ih⟩,
      List.forall_mem_singleton.2 (.rightParen hc)⟩

/-- Whether a token is a binary operator of some rule. -/
def IsBinaryOperator (t : Token) : Prop :=
  ∃ n s m, BinaryRule n s m ∧ t.data = .symbol s

end Grammar

/-! ## The levels of the reader -/

namespace Level

open Grammar

/-- The nonterminal that a level reads. -/
def nonterminal : Level → Nonterminal
  | comma => .comma
  | equality => .equality
  | comparison => .comparison
  | term => .term
  | factor => .factor
  | unary => .unary

theorem nonterminal_injective {l m : Level} (h : l.nonterminal = m.nonterminal) : l = m := by
  cases l <;> cases m <;> first | rfl | cases h

theorem exists_nonterminal_eq (n : Nonterminal) :
    n = .primary ∨ ∃ l : Level, n = l.nonterminal := by
  cases n
  case primary => exact .inl rfl
  case comma => exact .inr ⟨.comma, rfl⟩
  case equality => exact .inr ⟨.equality, rfl⟩
  case comparison => exact .inr ⟨.comparison, rfl⟩
  case term => exact .inr ⟨.term, rfl⟩
  case factor => exact .inr ⟨.factor, rfl⟩
  case unary => exact .inr ⟨.unary, rfl⟩

theorem unitRule_operand {l : Level} (h : l ≠ .unary) :
    UnitRule l.nonterminal l.operand.nonterminal := by
  cases l
  case unary => exact absurd rfl h
  all_goals constructor

/-- A unit rule goes from a level to that of its operands, or from the unary expressions to the
primary ones. -/
theorem exists_of_unitRule {n m : Nonterminal} (h : UnitRule n m) :
    (∃ l : Level, l ≠ .unary ∧ n = l.nonterminal ∧ m = l.operand.nonterminal) ∨
      n = .unary ∧ m = .primary := by
  cases h with
  | comma => exact .inl ⟨.comma, by decide, rfl, rfl⟩
  | equality => exact .inl ⟨.equality, by decide, rfl, rfl⟩
  | comparison => exact .inl ⟨.comparison, by decide, rfl, rfl⟩
  | term => exact .inl ⟨.term, by decide, rfl, rfl⟩
  | factor => exact .inl ⟨.factor, by decide, rfl, rfl⟩
  | unary => exact .inr ⟨rfl, rfl⟩

/-- The operators of a level are those of the rules for its nonterminal. -/
theorem mem_operators {l : Level} {s : Symbol} :
    s ∈ l.operators ↔ BinaryRule l.nonterminal s l.operand.nonterminal := by
  constructor
  · intro h
    cases l <;> simp only [operators, List.mem_cons, List.not_mem_nil, or_false] at h <;>
      rcases h with rfl | rfl | rfl | rfl <;> constructor
  · intro h
    cases l <;> cases h <;> decide

/-- A rule for a binary operator belongs to a level. -/
theorem exists_of_binaryRule {n m : Nonterminal} {s : Symbol} (h : BinaryRule n s m) :
    ∃ l : Level, l ≠ .unary ∧ n = l.nonterminal ∧ m = l.operand.nonterminal ∧
      s ∈ l.operators := by
  have hl : ∃ l : Level, l ≠ .unary ∧ n = l.nonterminal ∧ m = l.operand.nonterminal := by
    cases h
    case comma => exact ⟨.comma, by decide, rfl, rfl⟩
    case bangEqual | equalEqual => exact ⟨.equality, by decide, rfl, rfl⟩
    case greater | greaterEqual | less | lessEqual => exact ⟨.comparison, by decide, rfl, rfl⟩
    case minus | plus => exact ⟨.term, by decide, rfl, rfl⟩
    case star | slash => exact ⟨.factor, by decide, rfl, rfl⟩
  obtain ⟨l, hl, rfl, rfl⟩ := hl
  exact ⟨l, hl, rfl, rfl, mem_operators.2 h⟩

/-- No symbol is an operator of two levels. -/
theorem eq_of_mem_operators {l m : Level} {s : Symbol} (hl : s ∈ l.operators)
    (hm : s ∈ m.operators) : l = m := by
  have hl' := mem_operators.1 hl
  have hm' := mem_operators.1 hm
  cases l <;> cases hl' <;> cases m <;> first | rfl | cases hm'

end Level

open Grammar in
/-- What the literals of the grammar are. -/
theorem TokenData.literal?_eq_some_iff {d : TokenData} {v : Literal} :
    d.literal? = some v ↔ LiteralRule d v := by
  constructor
  · intro h
    unfold literal? at h
    split at h <;> cases h <;> constructor
  · intro h
    cases h <;> rfl

namespace Token

open Grammar

theorem isSymbol_iff {t : Token} {s : Symbol} : t.isSymbol s = true ↔ t.data = .symbol s := by
  simp [isSymbol]

theorem isOperatorOf_iff {t : Token} {l : Level} :
    t.isOperatorOf l = true ↔ ∃ s ∈ l.operators, t.data = .symbol s := by
  simp [isOperatorOf, isSymbol_iff]

theorem isUnaryOperator_iff {t : Token} :
    t.isUnaryOperator = true ↔ ∃ s, UnaryRule s ∧ t.data = .symbol s := by
  simp only [isUnaryOperator, Bool.or_eq_true, isSymbol_iff]
  constructor
  · rintro (h | h)
    · exact ⟨_, .bang, h⟩
    · exact ⟨_, .minus, h⟩
  · rintro ⟨s, ⟨⟩, h⟩
    · exact .inl h
    · exact .inr h

/-- A token is a binary operator if it is one of some level. -/
theorem isBinaryOperator_iff {t : Token} :
    IsBinaryOperator t ↔ ∃ l, t.isOperatorOf l = true := by
  simp only [isOperatorOf_iff]
  constructor
  · rintro ⟨n, s, m, h, hs⟩
    obtain ⟨l, -, -, -, hl⟩ := Level.exists_of_binaryRule h
    exact ⟨l, s, hl, hs⟩
  · rintro ⟨l, s, hl, hs⟩
    exact ⟨_, s, _, Level.mem_operators.1 hl, hs⟩

end Token

end Lox
