import Lox.Proofs.Tree.Parts
/-!
# Equality of trees

The comparison of trees is arithmetic where it comes to numbers, so in
general it is neither reflexive nor finer than identity on what is rendered.
The numbers of a source have no sign and are numbers, and on trees of sources
the comparison is identity.
-/


namespace Lox

namespace Number

theorem isNaN_unsigned (m : Nat) : (unsigned m).isNaN = false :=
  decide_eq_false (Nat.not_lt.2 (Nat.min_le_left _ _))

/-- Values without a sign are compared by their magnitude. -/
theorem equal_unsigned_iff (m n : Nat) :
    (unsigned m).equal (unsigned n) = true ↔ unsigned m = unsigned n := by
  rw [equal, isNaN_unsigned, isNaN_unsigned]
  simp only [Bool.not_false, Bool.true_and, Bool.or_eq_true, Bool.and_eq_true, beq_iff_eq]
  constructor
  · rintro (⟨hm, hn⟩ | h)
    · simp only [unsigned] at hm hn ⊢
      simp only [hm, hn]
    · exact h
  · exact .inr

end Number

theorem Literal.equal_iff_eq {a b : Literal} (ha : a.Lexical) (hb : b.Lexical) :
    a.equal b = true ↔ a = b := by
  cases a with
  | number m =>
    cases b with
    | number n =>
      obtain ⟨m, rfl⟩ := ha
      obtain ⟨n, rfl⟩ := hb
      rw [Literal.equal, Number.equal_unsigned_iff, Literal.number.injEq]
    | _ => simp [Literal.equal]
  | _ => simp [Literal.equal]

theorem Token.equal_iff_eq {o p : Token} (ho : o.IsSpelled) : o.equal p = true ↔ o = p := by
  obtain ⟨d, t, k⟩ := o
  obtain ⟨s, hd, -⟩ := ho
  simp only at hd
  subst hd
  obtain ⟨d', t', k'⟩ := p
  simp [Token.equal, TokenData.equal, and_assoc]

/-- **On trees of sources the comparison is identity.** -/
theorem Expr.equal_iff_eq {a b : Expr} (ha : a.Lexical) (hb : b.Lexical) :
    a.equal b = true ↔ a = b := by
  induction a generalizing b with
  | literal v =>
    cases b with
    | literal w =>
      rw [Expr.equal, Expr.literal.injEq]
      exact Literal.equal_iff_eq (ha.literals v List.mem_cons_self)
        (hb.literals w List.mem_cons_self)
    | _ => simp [Expr.equal]
  | group e ih =>
    cases b with
    | group f =>
      rw [Expr.equal, Expr.group.injEq]
      exact ih (lexical_group.1 ha) (lexical_group.1 hb)
    | _ => simp [Expr.equal]
  | unary o e ih =>
    cases b with
    | unary p f =>
      obtain ⟨ho, he⟩ := lexical_unary.1 ha
      obtain ⟨-, hf⟩ := lexical_unary.1 hb
      rw [Expr.equal, Expr.unary.injEq, Bool.and_eq_true, Token.equal_iff_eq ho, ih he hf]
    | _ => simp [Expr.equal]
  | binary l o r ihl ihr =>
    cases b with
    | binary l' p r' =>
      obtain ⟨hl, ho, hr⟩ := lexical_binary.1 ha
      obtain ⟨hl', -, hr'⟩ := lexical_binary.1 hb
      rw [Expr.equal, Expr.binary.injEq, Bool.and_eq_true, Bool.and_eq_true, ihl hl hl',
        Token.equal_iff_eq ho, ihr hr hr', and_assoc]
    | _ => simp [Expr.equal]

end Lox
