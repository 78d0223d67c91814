import Lox.Proofs.Lexical.Tokens
import Lox.Proofs.RoundTrip.Rendered
/-!
# The characters of flat text

What flat text cannot be read as is decided by counting characters. A string
is read from text with a quote in it, and flat text has none. A false and a
nil are each read from a word with an `l`, and flat text has no `l` but those
of its falses, if no string brings one in.
-/


namespace Lox

open Lexical Grammar

namespace Number

/-- The characters with which numbers are written. -/
theorem mem_text_unsigned {m : Nat} {c : Char} (h : c ∈ (unsigned m).text) :
    c.isDigit = true ∨ c = '.' ∨ c ∈ "inf".toList := by
  rw [text_unsigned] at h
  split at h
  · have hmem : c ∈ (shortest (unsigned m).magnitude).whole ∨ c = '.' ∨
        c ∈ (shortest (unsigned m).magnitude).fraction := by
      unfold Numeral.text at h
      split at h
      · exact .inl h
      · simpa using h
    rcases hmem with hmem | rfl | hmem
    · exact .inl (isDigit_of_mem_whole hmem)
    · exact .inr (.inl rfl)
    · exact .inl (isDigit_of_mem_fraction hmem)
  · exact .inr (.inr h)

/-- A character that is none of those is not in the text of a number. -/
theorem not_mem_text_unsigned {m : Nat} {c : Char} (hd : c.isDigit = false) (hp : c ≠ '.')
    (hi : c ∉ "inf".toList) : c ∉ (unsigned m).text := by
  intro h
  rcases mem_text_unsigned h with h | h | h
  · rw [hd] at h
    cases h
  · exact hp h
  · exact hi h

end Number

theorem Token.IsSpelled.not_mem_lexeme {o : Token} (h : o.IsSpelled) :
    '"' ∉ o.lexeme ∧ 'l' ∉ o.lexeme := by
  obtain ⟨s, -, hs⟩ := h
  rw [hs]
  cases s <;> decide

/-! ## Quotes -/

namespace Expr.Lexical

/-- **There is no quote in flat text.** -/
theorem quote_not_mem {e : Expr} (h : e.Lexical) : '"' ∉ e.infixText := by
  induction e with
  | literal v =>
    have hv := h.literals v List.mem_cons_self
    cases v with
    | number n =>
      obtain ⟨m, rfl⟩ := hv
      exact Number.not_mem_text_unsigned (by decide) (by decide) (by decide)
    | str v => exact hv
    | boolean b => cases b <;> decide
    | nil => exact List.not_mem_nil
  | group e ih =>
    have ih := ih (lexical_group.1 h)
    simpa [infixText] using ih
  | unary o e ih =>
    obtain ⟨ho, he⟩ := lexical_unary.1 h
    rw [infixText, List.mem_append, not_or]
    exact ⟨ho.not_mem_lexeme.1, ih he⟩
  | binary l o r ihl ihr =>
    obtain ⟨hl, ho, hr⟩ := lexical_binary.1 h
    rw [infixText, List.mem_append, List.mem_append, not_or, not_or]
    exact ⟨⟨ihl hl, ho.not_mem_lexeme.1⟩, ihr hr⟩

/-- **The falses alone bring an `l` into flat text**, if there is no string. -/
theorem count_l {e : Expr} (h : e.Lexical) (hstr : ∀ v, Literal.str v ∉ e.literals) :
    e.infixText.count 'l' = e.literals.count (.boolean false) := by
  induction e with
  | literal v =>
    have hv := h.literals v List.mem_cons_self
    cases v with
    | number n =>
      obtain ⟨m, rfl⟩ := hv
      have hnot : 'l' ∉ (Number.unsigned m).text :=
        Number.not_mem_text_unsigned (by decide) (by decide) (by decide)
      exact List.count_eq_zero.2 hnot
    | str v => exact absurd List.mem_cons_self (hstr v)
    | boolean b => cases b <;> decide
    | nil => rfl
  | group e ih =>
    have ih := ih (lexical_group.1 h) hstr
    simpa [infixText, Expr.literals] using ih
  | unary o e ih =>
    obtain ⟨ho, he⟩ := lexical_unary.1 h
    rw [infixText, Expr.literals, List.count_append, List.count_eq_zero.2 ho.not_mem_lexeme.2,
      Nat.zero_add, ih he hstr]
  | binary l o r ihl ihr =>
    obtain ⟨hl, ho, hr⟩ := lexical_binary.1 h
    have hstrl : ∀ v, Literal.str v ∉ l.literals := fun v hv =>
      hstr v (List.mem_append_left _ hv)
    have hstrr : ∀ v, Literal.str v ∉ r.literals := fun v hv =>
      hstr v (List.mem_append_right _ hv)
    rw [infixText, Expr.literals, List.count_append, List.count_append, List.count_append,
      List.count_eq_zero.2 ho.not_mem_lexeme.2, Nat.add_zero, ihl hl hstrl, ihr hr hstrr]

end Expr.Lexical

/-! ## What a tree needs of its source -/

/-- A string is read from text with a quote. -/
theorem quote_mem_of_parseSource {source : Text} {e : Expr} (h : parseSource source = .ok e)
    {v : Text} (hv : Literal.str v ∈ e.literals) : '"' ∈ source := by
  obtain ⟨c, hder, -, hpiece, hsub⟩ := exists_tokens_of_parseSource h
  rw [hder.literals_eq] at hv
  obtain ⟨t, ht, hv⟩ := List.mem_filterMap.1 hv
  have hlexeme : '"' ∈ t.lexeme := by
    have hp := hpiece t ht
    have hrule := TokenData.literal?_eq_some_iff.1 hv
    generalize t.lexeme = x at hp ⊢
    generalize t.data = d at hp hrule
    cases hrule
    cases hp
    exact List.mem_cons_self
  exact hsub.subset (List.mem_flatten.2 ⟨_, List.mem_map_of_mem ht, hlexeme⟩)

/-- A false and a nil are each read from a word with an `l`. -/
theorem count_l_lexeme {t : Token} (h : Piece t.lexeme (.token t.data)) {v : Literal}
    (hv : t.literal? = some v) :
    [v].count (.boolean false) + [v].count .nil ≤ t.lexeme.count 'l' := by
  have hrule := TokenData.literal?_eq_some_iff.1 hv
  generalize t.lexeme = x at h ⊢
  generalize t.data = d at h hrule
  cases hrule with
  | falseWord | trueWord | nilWord =>
    cases h
    decide
  | number | str => exact Nat.zero_le _

theorem count_l_lexemes {c : List Token} (h : ∀ t ∈ c, Piece t.lexeme (.token t.data)) :
    (c.filterMap Token.literal?).count (.boolean false) +
      (c.filterMap Token.literal?).count .nil ≤ (c.map Token.lexeme).flatten.count 'l' := by
  induction c with
  | nil => exact Nat.zero_le _
  | cons t c ih =>
    obtain ⟨ht, hc⟩ := List.forall_mem_cons.1 h
    have ih := ih hc
    rw [List.map_cons, List.flatten_cons, List.count_append]
    cases hv : t.literal? with
    | none =>
      rw [List.filterMap_cons_none hv]
      omega
    | some v =>
      have hlexeme := count_l_lexeme ht hv
      rw [List.filterMap_cons_some hv, ← List.singleton_append, List.count_append,
        List.count_append]
      omega

theorem count_l_of_parseSource {source : Text} {e : Expr} (h : parseSource source = .ok e) :
    e.literals.count (.boolean false) + e.literals.count .nil ≤ source.count 'l' := by
  obtain ⟨c, hder, -, hpiece, hsub⟩ := exists_tokens_of_parseSource h
  rw [hder.literals_eq]
  exact Nat.le_trans (count_l_lexemes hpiece) (hsub.count_le 'l')

end Lox
