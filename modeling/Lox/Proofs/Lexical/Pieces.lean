import Lox.Lexeme
import Lox.Proofs.Lexical.Nesting
/-!
# The lexical grammar

What the lexemes and the trivia are, as sets of texts, and what stands in
front of a text: the longest of them. The grammar says nothing of how they
are found. A quotation that is opened and not closed, and a block comment
that is opened and not closed, come before the longest-text rule and take
all that is left.
-/


namespace Lox

namespace Lexical

/-- One digit or more. -/
structure IsDigits (t : Text) : Prop where
  ne_nil : t ≠ []
  digit : ∀ c ∈ t, c.isDigit = true

/-- **The lexemes and the trivia**: `Piece t f` if the text `t` is one of them, to be read as
`f`. -/
inductive Piece : Text → Finding → Prop
  | symbol (s : Symbol) : Piece s.spelling (.token (.symbol s))
  /-- A number without a point. -/
  | integer {w : Text} : IsDigits w → Piece w (.token (.number (Numeral.mk w []).value))
  /-- A number with a point, which has digits on both sides. -/
  | decimal {w f : Text} : IsDigits w → IsDigits f →
      Piece (w ++ '.' :: f) (.token (.number (Numeral.mk w f).value))
  | keyword (k : Keyword) : Piece k.spelling (.token (.keyword k))
  /-- A word that is no keyword. -/
  | identifier {c : Char} {t : Text} : isWordStart c = true → (∀ d ∈ t, isWordPart d = true) →
      (∀ k : Keyword, k.spelling ≠ c :: t) → Piece (c :: t) (.token .identifier)
  /-- A quoted text has no quote inside. -/
  | quoted {v : Text} : '"' ∉ v → Piece ('"' :: (v ++ ['"'])) (.token (.str v))
  | blank {c : Char} : c ∈ [' ', '\t', '\r', '\n'] → Piece [c] .trivia
  | lineComment {v : Text} : '\n' ∉ v → Piece ('/' :: '/' :: v) .trivia
  | blockComment {t : Text} : Comment.Tail t → Piece ('/' :: '*' :: t) .trivia

/-- Whether a quotation or a block comment that starts in front of `r` is closed in `r`. -/
structure Terminated (r : Text) : Prop where
  quoted : ∀ t, r = '"' :: t → '"' ∈ t
  blockComment : ∀ t, r = '/' :: '*' :: t → ∃ u, Comment.Tail u ∧ u <+: t

/-- **The segments**: `Stands r t f` if `t` is the segment that stands in front of `r`, to be read
as `f`. -/
inductive Stands : Text → Text → Finding → Prop
  | unterminatedString {t : Text} :
      '"' ∉ t → Stands ('"' :: t) ('"' :: t) (.fault .unterminatedString)
  | unterminatedBlockComment {t : Text} : (∀ u, Comment.Tail u → ¬ u <+: t) →
      Stands ('/' :: '*' :: t) ('/' :: '*' :: t) (.fault .unterminatedBlockComment)
  /-- The longest lexeme or trivia in front. -/
  | longest {r t : Text} {f : Finding} : Terminated r → Piece t f → t <+: r →
      (∀ u g, Piece u g → u <+: r → u.length ≤ t.length) → Stands r t f
  /-- Where there is none, one character. -/
  | unexpected {c : Char} {r : Text} : Terminated (c :: r) →
      (∀ u g, Piece u g → ¬ u <+: c :: r) →
      Stands (c :: r) [c] (.fault (.unexpectedCharacter c))

/-! ## Characters -/

theorem isBlank_iff_mem {c : Char} : isBlank c = true ↔ c ∈ [' ', '\t', '\r', '\n'] := by
  simp only [isBlank, Bool.or_eq_true, beq_iff_eq, List.mem_cons, List.not_mem_nil, or_false]
  grind

theorem not_isDigit_of_isWordStart {c : Char} (h : isWordStart c = true) : c.isDigit = false := by
  simp only [isWordStart, Bool.or_eq_true, beq_iff_eq] at h
  rcases h with h | rfl
  · delta Char.isAlpha Char.isUpper Char.isLower at h
    delta Char.isDigit
    grind
  · decide

theorem not_isBlank_of_isDigit {c : Char} (h : c.isDigit = true) : isBlank c = false := by
  cases hb : isBlank c with
  | false => rfl
  | true =>
    simp only [isBlank, Bool.or_eq_true, beq_iff_eq] at hb
    rcases hb with ((rfl | rfl) | rfl) | rfl <;> exact absurd h (by decide)

theorem not_isBlank_of_isWordStart {c : Char} (h : isWordStart c = true) : isBlank c = false := by
  cases hb : isBlank c with
  | false => rfl
  | true =>
    simp only [isBlank, Bool.or_eq_true, beq_iff_eq] at hb
    rcases hb with ((rfl | rfl) | rfl) | rfl <;> exact absurd h (by decide)

theorem isWordPart_of_isWordStart {c : Char} (h : isWordStart c = true) : isWordPart c = true := by
  simp [isWordPart, h]

theorem not_isBlank_of_isWordPart {c : Char} (h : isWordPart c = true) : isBlank c = false := by
  rcases Bool.or_eq_true_iff.1 h with hstart | hdigit
  · exact not_isBlank_of_isWordStart hstart
  · exact not_isBlank_of_isDigit hdigit

theorem isWordPart_of_mem {c : Char} {t : Text} (hc : isWordStart c = true)
    (ht : ∀ d ∈ t, isWordPart d = true) : ∀ d ∈ c :: t, isWordPart d = true := by
  intro d hd
  rcases List.mem_cons.1 hd with rfl | hd
  · exact isWordPart_of_isWordStart hc
  · exact ht d hd

/-- A word is a lexeme, whether it is a keyword or not. -/
theorem Piece.word {c : Char} {t : Text} (hc : isWordStart c = true)
    (ht : ∀ d ∈ t, isWordPart d = true) : Piece (c :: t) (.token (.ofWord (c :: t))) := by
  unfold TokenData.ofWord
  cases hk : Keyword.ofSpelling? (c :: t) with
  | some k =>
    rw [← Keyword.spelling_of_ofSpelling? hk]
    exact .keyword k
  | none =>
    refine .identifier hc ht fun k hk' => ?_
    rw [← hk', Keyword.ofSpelling?_spelling] at hk
    cases hk

/-- A keyword is written as a word. -/
theorem exists_spelling_eq_cons (k : Keyword) :
    ∃ c t, k.spelling = c :: t ∧ isWordStart c = true ∧ ∀ d ∈ t, isWordPart d = true := by
  have hstart : k.spelling.head?.any isWordStart = true := by cases k <;> decide
  have hpart : k.spelling.all isWordPart = true := by cases k <;> decide
  cases hk : k.spelling with
  | nil =>
    rw [hk] at hstart
    cases hstart
  | cons c t =>
    rw [hk] at hstart hpart
    exact ⟨c, t, rfl, hstart, fun d hd => List.all_eq_true.1 hpart d (List.mem_cons_of_mem c hd)⟩

/-- No piece is empty, and apart from the symbols its first character tells of what class it is. -/
theorem Piece.exists_cons {p : Text} {f : Finding} (h : Piece p f) :
    (∃ s : Symbol, p = s.spelling) ∨
      ∃ c t, p = c :: t ∧
        (isBlank c = true ∨ c = '"' ∨ c = '/' ∨ c.isDigit = true ∨ isWordStart c = true) := by
  cases h with
  | symbol s => exact .inl ⟨s, rfl⟩
  | integer hw =>
    obtain ⟨c, t, rfl⟩ := List.exists_cons_of_ne_nil hw.ne_nil
    exact .inr ⟨c, t, rfl, .inr (.inr (.inr (.inl (hw.digit c List.mem_cons_self))))⟩
  | decimal hw hf =>
    obtain ⟨c, t, rfl⟩ := List.exists_cons_of_ne_nil hw.ne_nil
    exact .inr ⟨c, _, rfl, .inr (.inr (.inr (.inl (hw.digit c List.mem_cons_self))))⟩
  | keyword k =>
    obtain ⟨c, t, hk, hc, -⟩ := exists_spelling_eq_cons k
    exact .inr ⟨c, t, hk, .inr (.inr (.inr (.inr hc)))⟩
  | identifier hc => exact .inr ⟨_, _, rfl, .inr (.inr (.inr (.inr hc)))⟩
  | quoted => exact .inr ⟨_, _, rfl, .inr (.inl rfl)⟩
  | blank hc => exact .inr ⟨_, _, rfl, .inl (isBlank_iff_mem.2 hc)⟩
  | lineComment | blockComment => exact .inr ⟨_, _, rfl, .inr (.inr (.inl rfl))⟩

end Lexical

end Lox
