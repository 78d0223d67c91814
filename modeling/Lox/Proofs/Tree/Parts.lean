import Lox.Expr
/-!
# The parts of a tree

The literals of a tree and its operator tokens, left to right, and the tree
with every operator token replaced. A tree is `Lexical` if its parts are such
as a scan gives: no number has a sign or is no number, no string holds a
quote, and an operator is a symbol with its own spelling. Only the line of an
operator is left open by that.
-/


namespace Lox

namespace Expr

/-- The literals, left to right. -/
def literals : Expr → List Literal
  | literal v => [v]
  | group e => e.literals
  | unary _ e => e.literals
  | binary l _ r => l.literals ++ r.literals

/-- The operator tokens, left to right. -/
def operators : Expr → List Token
  | literal _ => []
  | group e => e.operators
  | unary o e => o :: e.operators
  | binary l o r => l.operators ++ o :: r.operators

/-- The tree with `f` applied to each operator token. -/
def mapOperators (f : Token → Token) : Expr → Expr
  | literal v => literal v
  | group e => group (e.mapOperators f)
  | unary o e => unary (f o) (e.mapOperators f)
  | binary l o r => binary (l.mapOperators f) (f o) (r.mapOperators f)

/-- The tree with every operator token moved to line `k`. -/
def onLine (k : Nat) (e : Expr) : Expr := e.mapOperators fun o => { o with line := k }

theorem literals_mapOperators (f : Token → Token) (e : Expr) :
    (e.mapOperators f).literals = e.literals := by
  induction e with
  | literal v => rfl
  | group e ih => exact ih
  | unary o e ih => exact ih
  | binary l o r ihl ihr => rw [mapOperators, literals, literals, ihl, ihr]

/-- Only what becomes of the operators counts. -/
theorem mapOperators_congr {f g : Token → Token} {e : Expr}
    (h : ∀ o ∈ e.operators, f o = g o) : e.mapOperators f = e.mapOperators g := by
  induction e with
  | literal v => rfl
  | group e ih => rw [mapOperators, mapOperators, ih h]
  | unary o e ih =>
    rw [mapOperators, mapOperators, h o List.mem_cons_self,
      ih fun p hp => h p (List.mem_cons_of_mem o hp)]
  | binary l o r ihl ihr =>
    rw [mapOperators, mapOperators, h o (List.mem_append_right _ List.mem_cons_self),
      ihl fun p hp => h p (List.mem_append_left _ hp),
      ihr fun p hp => h p (List.mem_append_right _ (List.mem_cons_of_mem o hp))]

theorem operators_mapOperators (f : Token → Token) (e : Expr) :
    (e.mapOperators f).operators = e.operators.map f := by
  induction e with
  | literal v => rfl
  | group e ih => exact ih
  | unary o e ih => rw [mapOperators, operators, operators, ih, List.map_cons]
  | binary l o r ihl ihr =>
    rw [mapOperators, operators, operators, ihl, ihr, List.map_append, List.map_cons]

theorem mapOperators_id (e : Expr) : e.mapOperators id = e := by
  induction e with
  | literal v => rfl
  | group e ih => rw [mapOperators, ih]
  | unary o e ih => rw [mapOperators, ih, id]
  | binary l o r ihl ihr => rw [mapOperators, ihl, ihr, id]

theorem literals_onLine (k : Nat) (e : Expr) : (e.onLine k).literals = e.literals :=
  literals_mapOperators _ e

theorem line_of_mem_operators_onLine {k : Nat} {e : Expr} {o : Token}
    (h : o ∈ (e.onLine k).operators) : o.line = k := by
  rw [onLine, operators_mapOperators] at h
  obtain ⟨p, -, rfl⟩ := List.mem_map.1 h
  rfl

/-- **A tree is left as it is if its operators already are on the line.** -/
theorem onLine_eq_self_iff {k : Nat} {e : Expr} :
    e.onLine k = e ↔ ∀ o ∈ e.operators, o.line = k := by
  constructor
  · intro h o ho
    exact line_of_mem_operators_onLine (h.symm ▸ ho)
  · intro h
    have hid : e.onLine k = e.mapOperators id := mapOperators_congr fun o ho => by rw [← h o ho, id]
    rw [hid, mapOperators_id]

theorem onLine_onLine (k : Nat) (e : Expr) : (e.onLine k).onLine k = e.onLine k :=
  onLine_eq_self_iff.2 fun _ => line_of_mem_operators_onLine

end Expr

/-- Whether a literal is such as a scan gives. -/
def Literal.Lexical : Literal → Prop
  | number n => ∃ m, n = Number.unsigned m
  | str v => '"' ∉ v
  | boolean _ => True
  | nil => True

/-- Whether an operator token is such as a scan gives. -/
def Token.IsSpelled (o : Token) : Prop := ∃ s, o.data = .symbol s ∧ o.lexeme = s.spelling

/-- **The trees of sources**: every part is such as a scan gives. -/
structure Expr.Lexical (e : Expr) : Prop where
  literals : ∀ v ∈ e.literals, v.Lexical
  operators : ∀ o ∈ e.operators, o.IsSpelled

namespace Expr

theorem lexical_group {e : Expr} : (group e).Lexical ↔ e.Lexical :=
  ⟨fun h => ⟨h.literals, h.operators⟩, fun h => ⟨h.literals, h.operators⟩⟩

theorem lexical_unary {o : Token} {e : Expr} :
    (unary o e).Lexical ↔ o.IsSpelled ∧ e.Lexical := by
  constructor
  · intro h
    exact ⟨h.operators o List.mem_cons_self, h.literals,
      fun p hp => h.operators p (List.mem_cons_of_mem o hp)⟩
  · rintro ⟨ho, h⟩
    exact ⟨h.literals, List.forall_mem_cons.2 ⟨ho, h.operators⟩⟩

theorem lexical_binary {l r : Expr} {o : Token} :
    (binary l o r).Lexical ↔ l.Lexical ∧ o.IsSpelled ∧ r.Lexical := by
  constructor
  · rintro ⟨hlit, hop⟩
    obtain ⟨hlitl, hlitr⟩ := List.forall_mem_append.1 hlit
    obtain ⟨hopl, hop⟩ := List.forall_mem_append.1 hop
    obtain ⟨ho, hopr⟩ := List.forall_mem_cons.1 hop
    exact ⟨⟨hlitl, hopl⟩, ho, hlitr, hopr⟩
  · rintro ⟨hl, ho, hr⟩
    exact ⟨List.forall_mem_append.2 ⟨hl.literals, hr.literals⟩,
      List.forall_mem_append.2 ⟨hl.operators, List.forall_mem_cons.2 ⟨ho, hr.operators⟩⟩⟩

end Expr

/-- **The trees that flat text can express**: those without a string, a nil and an infinite
number. -/
structure Expr.Expressible (e : Expr) : Prop where
  str : ∀ v, Literal.str v ∉ e.literals
  nil : Literal.nil ∉ e.literals
  infinite : ∀ n, Literal.number n ∈ e.literals → n.isFinite = true

end Lox
