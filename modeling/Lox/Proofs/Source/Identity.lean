import Lox.Postfix
import Lox.Proofs.Lexical.Tokens
import Lox.Proofs.Tree.Equality
/-!
# Comparing what sources parse to

Outcomes of parsing are compared by an equality that is arithmetic where it
comes to numbers. Arithmetic equality is not identity: what is no number does
not equal itself, and the two zeros are equal although they are different
numbers and written differently. No tree of a source holds a number of either
kind, and on the outcomes of parsing sources the comparison is identity.
-/


namespace Lox

namespace Number

/-- Two numbers are the same exactly if they have the same bits. -/
theorem bits_inj {m n : Number} : m.bits = n.bits ↔ m = n := by
  constructor
  · intro h
    rw [← ofBits_bits m, h, ofBits_bits]
  · exact congrArg bits

/-- A value that is no number. -/
def quietNaN : Number := ofBits 0x7FF8000000000000

/-- The zero with a sign. -/
def negativeZero : Number := ofBits 0x8000000000000000

end Number

/-! ## Identity, part by part -/

/-- Two literals are the same value, numbers down to their bits. -/
inductive Literal.Identical : Literal → Literal → Prop
  | number {m n : Number} : m.bits = n.bits → Identical (.number m) (.number n)
  | str (v : Text) : Identical (.str v) (.str v)
  | boolean (b : Bool) : Identical (.boolean b) (.boolean b)
  | nil : Identical .nil .nil

/-- Two tokens have the same data, the same lexeme and the same line. -/
structure Token.Identical (o p : Token) : Prop where
  data : o.data = p.data
  lexeme : o.lexeme = p.lexeme
  line : o.line = p.line

/-- **Two trees are identical**: they have one shape, with identical operators and literals. -/
inductive Expr.Identical : Expr → Expr → Prop
  | literal {v w : Literal} : v.Identical w → Identical (.literal v) (.literal w)
  | group {a b : Expr} : Identical a b → Identical (.group a) (.group b)
  | unary {o p : Token} {a b : Expr} :
      o.Identical p → Identical a b → Identical (.unary o a) (.unary p b)
  | binary {o p : Token} {a b c d : Expr} :
      Identical a c → o.Identical p → Identical b d → Identical (.binary a o b) (.binary c p d)

/-- **Two outcomes are identical**: both are trees, and identical ones, or both are the same
reports. -/
inductive IdenticalOutcomes : Except Diagnostics Expr → Except Diagnostics Expr → Prop
  | tree {a b : Expr} : a.Identical b → IdenticalOutcomes (.ok a) (.ok b)
  | reports (ds : Diagnostics) : IdenticalOutcomes (.error ds) (.error ds)

theorem Literal.identical_iff_eq {v w : Literal} : v.Identical w ↔ v = w := by
  constructor
  · intro h
    cases h with
    | number h => rw [Number.bits_inj.1 h]
    | str | boolean | nil => rfl
  · rintro rfl
    cases v with
    | number n => exact .number rfl
    | str v => exact .str v
    | boolean b => exact .boolean b
    | nil => exact .nil

theorem Token.identical_iff_eq {o p : Token} : o.Identical p ↔ o = p := by
  constructor
  · intro h
    cases o
    cases p
    rw [mk.injEq]
    exact ⟨h.data, h.lexeme, h.line⟩
  · rintro rfl
    exact ⟨rfl, rfl, rfl⟩

theorem Expr.identical_iff_eq {a b : Expr} : a.Identical b ↔ a = b := by
  constructor
  · intro h
    induction h with
    | literal h => rw [Literal.identical_iff_eq.1 h]
    | group _ ih => rw [ih]
    | unary ho _ ih => rw [Token.identical_iff_eq.1 ho, ih]
    | binary _ ho _ ihl ihr => rw [ihl, Token.identical_iff_eq.1 ho, ihr]
  · rintro rfl
    induction a with
    | literal v => exact .literal (Literal.identical_iff_eq.2 rfl)
    | group e ih => exact .group ih
    | unary o e ih => exact .unary (Token.identical_iff_eq.2 rfl) ih
    | binary l o r ihl ihr => exact .binary ihl (Token.identical_iff_eq.2 rfl) ihr

theorem identicalOutcomes_iff_eq {x y : Except Diagnostics Expr} :
    IdenticalOutcomes x y ↔ x = y := by
  constructor
  · intro h
    cases h with
    | tree h => rw [Expr.identical_iff_eq.1 h]
    | reports => rfl
  · rintro rfl
    cases x with
    | ok e => exact .tree (Expr.identical_iff_eq.2 rfl)
    | error ds => exact .reports ds

/-! ## The outcomes of sources -/

/-- A number in the tree of a source is a number and has no sign. -/
theorem isNaN_and_negative_of_parseSource {source : Text} {e : Expr} {n : Number}
    (h : parseSource source = .ok e) (hn : .number n ∈ e.literals) :
    n.isNaN = false ∧ n.negative = false := by
  obtain ⟨m, rfl⟩ := (lexical_of_parseSource h).literals _ hn
  exact ⟨Number.isNaN_unsigned m, rfl⟩

/-- **The comparison of what two sources parse to is identity.** -/
theorem equalOutcomes_iff_eq (a b : Text) :
    equalOutcomes (parseSource a) (parseSource b) = true ↔ parseSource a = parseSource b := by
  cases ha : parseSource a with
  | ok e =>
    cases hb : parseSource b with
    | ok f =>
      rw [equalOutcomes, Except.ok.injEq]
      exact Expr.equal_iff_eq (lexical_of_parseSource ha) (lexical_of_parseSource hb)
    | error ds => simp [equalOutcomes]
  | error ds =>
    cases hb : parseSource b with
    | ok f => simp [equalOutcomes]
    | error ds' => rw [equalOutcomes, Except.error.injEq, beq_iff_eq]

/-- **What comparing says.** -/
structure ComparedByIdentity : Prop where
  /-- Outcomes of sources are equal exactly if they are identical. -/
  identical_iff (a b : Text) : equalOutcomes (parseSource a) (parseSource b) = true ↔
    IdenticalOutcomes (parseSource a) (parseSource b)
  equivalence : Equivalence fun a b => equalOutcomes (parseSource a) (parseSource b) = true
  /-- Trees of sources that are equal are written alike. -/
  written {a b : Text} {e f : Expr} (ha : parseSource a = .ok e) (hb : parseSource b = .ok f)
    (h : equalOutcomes (parseSource a) (parseSource b) = true) :
    e.lispText = f.lispText ∧ e.infixText = f.infixText ∧ e.polishText = f.polishText
  /-- The numbers in a tree of a source. -/
  numbers {source : Text} {e : Expr} {n : Number} (h : parseSource source = .ok e)
    (hn : .number n ∈ e.literals) : n.isNaN = false ∧ n.negative = false
  /-- In general numbers that are equal are not the same. -/
  number_not_identity : ¬ ∀ m n : Number, m.equal n = true ↔ m.bits = n.bits
  /-- A number need not equal itself. -/
  number_not_equivalence : ¬ Equivalence fun m n : Number => m.equal n = true
  /-- Nor are numbers that are equal written alike. -/
  number_not_written : ¬ ∀ m n : Number, m.equal n = true → m.text = n.text

/-- **Outcomes of sources are compared by identity**, though numbers in general are not. -/
theorem comparedByIdentity : ComparedByIdentity where
  identical_iff a b := by rw [equalOutcomes_iff_eq, identicalOutcomes_iff_eq]
  equivalence := by
    simp only [equalOutcomes_iff_eq]
    exact ⟨fun _ => rfl, Eq.symm, Eq.trans⟩
  written ha hb h := by
    rw [equalOutcomes_iff_eq, ha, hb, Except.ok.injEq] at h
    subst h
    exact ⟨rfl, rfl, rfl⟩
  numbers := isNaN_and_negative_of_parseSource
  number_not_identity h := absurd ((h Number.quietNaN Number.quietNaN).2 rfl) (by decide)
  number_not_equivalence h := absurd (h.refl Number.quietNaN) (by decide)
  number_not_written h :=
    absurd (h (Number.unsigned 0) Number.negativeZero (by decide)) (by decide +kernel)

end Lox
