import Lox.Proofs.Grammar.Yield
import Lox.Proofs.Lexical.Front
import Lox.Proofs.Number.Written
import Lox.Proofs.Tree.Equality
/-!
# Rendered tokens as lexemes

What a symbol, a number, a true or a false is rendered as is a lexeme again,
and read as the same data, but for an infinite number: it is written `inf`,
which is a word. Flat text puts no blanks between these lexemes, so what
counts is which characters can stand behind them: an operand is never
followed by one that could belong to a number or a word, and never starts
with one that could belong to an operator or turn a slash into a comment.
-/


namespace Lox

open Lexical Grammar

/-! ## Numbers -/

/-- A numeral is a lexeme, and read as its value. -/
theorem Numeral.piece {n : Numeral} (hw : IsDigits n.whole)
    (hf : ∀ c ∈ n.fraction, c.isDigit = true) :
    Piece n.text (.token (.number n.value)) := by
  obtain ⟨w, f⟩ := n
  by_cases h : f = []
  · subst h
    exact .integer hw
  · rw [Lexical.text_of_fraction_ne_nil h]
    exact .decimal hw ⟨h, hf⟩

namespace Number

theorem unsigned_magnitude (m : Nat) : unsigned (unsigned m).magnitude = unsigned m := by
  simp [unsigned]

theorem text_unsigned (m : Nat) :
    (unsigned m).text =
      if (unsigned m).isFinite then (shortest (unsigned m).magnitude).text
      else "inf".toList := by
  rw [text, if_neg (by rw [isNaN_unsigned]; decide)]
  rfl

/-- A finite value without a sign is written as a lexeme that is read as that value. -/
theorem piece_of_isFinite {m : Nat} (h : (unsigned m).isFinite = true) :
    Piece (unsigned m).text (.token (.number (unsigned m))) := by
  have hlt : (unsigned m).magnitude < infinity := of_decide_eq_true h
  have hpiece := Numeral.piece
    ⟨whole_shortest_ne_nil (unsigned m).magnitude, fun _ => isDigit_of_mem_whole⟩
    fun _ => isDigit_of_mem_fraction
  rw [value_shortest hlt, unsigned_magnitude] at hpiece
  rwa [text_unsigned, if_pos h]

end Number

/-! ## Tokens -/

/-- What a token is read as once it is rendered: an infinite number becomes a word. -/
def TokenData.echo : TokenData → TokenData
  | number n => if n.isFinite then number n else identifier
  | d => d

namespace Token

/-- The tokens that are rendered as a lexeme: all that a tree of a source is made of, but for
strings and nil. -/
inductive IsVisible : Token → Prop
  | symbol {t : Token} {s : Symbol} : t.data = .symbol s → t.lexeme = s.spelling → IsVisible t
  | number {t : Token} {m : Nat} : t.data = .number (.unsigned m) → IsVisible t
  | trueWord {t : Token} : t.data = .keyword .trueWord → IsVisible t
  | falseWord {t : Token} : t.data = .keyword .falseWord → IsVisible t

/-- What infinity is written as is no keyword. -/
theorem piece_inf : Piece "inf".toList (.token .identifier) := by
  have hword : Piece ['i', 'n', 'f'] (.token .identifier) :=
    .identifier (by decide) (List.all_eq_true.1 (by decide)) fun k => by cases k <;> decide
  exact hword

namespace IsVisible

variable {t : Token}

theorem rendered_of_symbol (h : t.IsVisible) {s : Symbol} (hs : t.data = .symbol s) :
    t.rendered = s.spelling := by
  cases h with
  | symbol hd ht =>
    rw [hd] at hs
    cases hs
    rw [rendered, hd]
    cases s <;> first | rfl | exact ht
  | number hd => simp [hd] at hs
  | trueWord hd => simp [hd] at hs
  | falseWord hd => simp [hd] at hs

theorem echo_of_symbol {s : Symbol} (hs : t.data = .symbol s) : t.data.echo = .symbol s := by
  rw [hs]
  rfl

/-- **What a token is rendered as is a lexeme again.** -/
theorem piece (h : t.IsVisible) : Piece t.rendered (.token t.data.echo) := by
  cases h with
  | symbol hd ht =>
    rw [rendered_of_symbol (.symbol hd ht) hd, hd]
    exact .symbol _
  | number hd =>
    rw [rendered, hd]
    simp only [TokenData.echo]
    split
    · rename_i hfin
      exact Number.piece_of_isFinite hfin
    · rename_i hfin
      rw [Number.text_unsigned, if_neg hfin]
      exact piece_inf
  | trueWord hd =>
    rw [rendered, hd]
    exact .keyword .trueWord
  | falseWord hd =>
    rw [rendered, hd]
    exact .keyword .falseWord

/-- No string comes out of what is rendered. -/
theorem echo_ne_str (h : t.IsVisible) (v : Text) : t.data.echo ≠ .str v := by
  cases h with
  | symbol hd => simp [hd, TokenData.echo]
  | number hd =>
    rw [hd]
    simp only [TokenData.echo]
    split <;> simp
  | trueWord hd => simp [hd, TokenData.echo]
  | falseWord hd => simp [hd, TokenData.echo]

/-- A visible token that stands for a literal is read as a number or as a word. -/
theorem echo_of_literal (h : t.IsVisible) {v : Literal} (hv : LiteralRule t.data v) :
    (∃ n, t.data.echo = .number n) ∨ (∃ k, t.data.echo = .keyword k) ∨
      t.data.echo = .identifier := by
  cases h with
  | symbol hd => exact absurd hd (hv.ne_symbol _)
  | number hd =>
    rw [hd]
    simp only [TokenData.echo]
    split
    · exact .inl ⟨_, rfl⟩
    · exact .inr (.inr rfl)
  | trueWord hd => exact .inr (.inl ⟨.trueWord, by rw [hd]; rfl⟩)
  | falseWord hd => exact .inr (.inl ⟨.falseWord, by rw [hd]; rfl⟩)

end IsVisible

end Token

namespace Lexical

/-! ## What can stand next to what -/

/-- What may stand behind an operand: nothing that could belong to a number or a word. -/
def Closes (rest : Text) : Prop := ∀ c ∈ rest.head?, isWordPart c = false ∧ c ≠ '.'

/-- With what an operand starts: a number or a word, an opening parenthesis or a unary operator. -/
def Opens (t : Text) : Prop :=
  ∃ c u, t = c :: u ∧ (isWordPart c = true ∨ c = '(' ∨ c = '!' ∨ c = '-')

theorem Opens.append {t : Text} (h : Opens t) (u : Text) : Opens (t ++ u) := by
  obtain ⟨c, v, rfl, hc⟩ := h
  exact ⟨c, v ++ u, rfl, hc⟩

/-- No operator takes in the start of an operand, and no comment starts there. -/
theorem Opens.apart {t : Text} (h : Opens t) (s : Symbol) : Apart (.token (.symbol s)) t := by
  obtain ⟨c, u, rfl, hc⟩ := h
  -- what joins a symbol in front of it is one of these three
  have hne : c ≠ '=' ∧ c ≠ '/' ∧ c ≠ '*' := by
    rcases hc with hc | rfl | rfl | rfl
    · refine ⟨?_, ?_, ?_⟩ <;>
        rintro rfl <;> exact absurd hc (by decide)
    all_goals decide
  intro d hd
  cases Option.mem_some_iff.1 hd
  cases s <;> simp [extends?, joins, hne]

/-- What may stand behind an operand belongs to none. -/
theorem Closes.apart {rest : Text} (h : Closes rest) {d : TokenData}
    (hd : (∃ n, d = .number n) ∨ (∃ k, d = .keyword k) ∨ d = .identifier) :
    Apart (.token d) rest := by
  intro c hc
  obtain ⟨hword, hpoint⟩ := h c hc
  have hdigit : c.isDigit = false := by
    simp only [isWordPart, Bool.or_eq_false_iff] at hword
    exact hword.2
  rcases hd with ⟨n, rfl⟩ | ⟨k, rfl⟩ | rfl
  · simp [extends?, hdigit, hpoint]
  · exact hword
  · exact hword

/-- Numbers and words start with a character that can go on with one. -/
theorem Piece.opens {p : Text} {d : TokenData} (h : Piece p (.token d))
    (hd : (∃ n, d = .number n) ∨ (∃ k, d = .keyword k) ∨ d = .identifier) : Opens p := by
  have hdigit : ∀ {w u : Text}, IsDigits w → Opens (w ++ u) := by
    intro w u hw
    obtain ⟨c, v, rfl⟩ := List.exists_cons_of_ne_nil hw.ne_nil
    exact ⟨c, v ++ u, rfl, .inl (by simp [isWordPart, hw.digit c List.mem_cons_self])⟩
  cases h with
  | symbol s => simp at hd
  | integer hw => exact List.append_nil p ▸ hdigit hw
  | decimal hw => exact hdigit hw
  | keyword k =>
    obtain ⟨c, t, hk, hc, -⟩ := exists_spelling_eq_cons k
    exact ⟨c, t, hk, .inl (isWordPart_of_isWordStart hc)⟩
  | identifier hc => exact ⟨_, _, rfl, .inl (isWordPart_of_isWordStart hc)⟩
  | quoted => simp at hd

/-- A binary operator may stand behind an operand. -/
theorem closes_of_binaryRule {n m : Nonterminal} {s : Symbol} (h : BinaryRule n s m)
    (rest : Text) : Closes (s.spelling ++ rest) := by
  cases h <;>
    · intro c hc
      cases Option.mem_some_iff.1 hc
      decide

end Lexical

end Lox
