import Lox.Proofs.Grammar.Parsing
import Lox.Proofs.Grammar.Yield
import Lox.Proofs.Lexical.Segmentation
import Lox.Source
/-!
# The tokens of a source

Every token that a scan gives before the end marker is a lexeme of the lexical
grammar, read as the data that it has, and together the lexemes are part of
the source. A source parses exactly if nothing in it is at fault and some of
its first tokens are an expression behind which no operator follows; the tree
is then made of parts such as a scan gives.
-/


namespace Lox

/-- The value of a numeral has no sign, and is a number. -/
theorem Numeral.exists_value_eq (n : Numeral) : ∃ m, n.value = Number.unsigned m := ⟨_, rfl⟩

namespace Lexical

/-- The tokens of a source, without the end marker. -/
def tokensOf (source : Text) : List Token :=
  (Segment.cut (.start source)).filterMap Segment.token?

theorem Stands.piece {r t : Text} {d : TokenData} (h : Stands r t (.token d)) :
    Piece t (.token d) := by
  cases h with
  | longest _ hp => exact hp

theorem piece_of_mem_tokensFrom {r : Text} {segs : List (Text × Finding)} (h : Segmented r segs)
    {k : Nat} : ∀ t ∈ tokensFrom k segs, Piece t.lexeme (.token t.data) := by
  induction h generalizing k with
  | nil => exact fun t ht => absurd ht List.not_mem_nil
  | @cons u rest f segs _ hstands _ ih =>
    cases f with
    | token d => exact List.forall_mem_cons.2 ⟨hstands.piece, ih⟩
    | trivia => exact ih
    | fault => exact ih

theorem lexemes_sublist_tokensFrom (segs : List (Text × Finding)) (k : Nat) :
    List.Sublist ((tokensFrom k segs).map Token.lexeme).flatten (segs.map Prod.fst).flatten := by
  induction segs generalizing k with
  | nil => exact List.Sublist.refl _
  | cons s segs ih =>
    obtain ⟨u, f⟩ := s
    cases f with
    | token d => exact (List.Sublist.refl u).append (ih _)
    | trivia => exact (ih _).trans (List.sublist_append_right _ _)
    | fault => exact (ih _).trans (List.sublist_append_right _ _)

/-- **A token of a source is a lexeme**, read as its data. -/
theorem piece_of_mem_tokensOf {source : Text} {t : Token} (h : t ∈ tokensOf source) :
    Piece t.lexeme (.token t.data) := by
  obtain ⟨hseg, htok, -⟩ := Segment.segmented_cut (.start source)
  rw [tokensOf, htok] at h
  exact piece_of_mem_tokensFrom hseg t h

/-- The lexemes of its tokens are part of the source. -/
theorem lexemes_sublist (source : Text) :
    List.Sublist ((tokensOf source).map Token.lexeme).flatten source := by
  obtain ⟨hseg, htok, -⟩ := Segment.segmented_cut (.start source)
  have hsub := lexemes_sublist_tokensFrom ((Segment.cut (.start source)).map Segment.view)
    (Position.start source).line
  rwa [← htok, hseg.flatten] at hsub

/-! ## What the lexemes hold -/

theorem Piece.ne_eof {p : Text} {d : TokenData} (h : Piece p (.token d)) : d ≠ .eof := by
  cases h <;> simp

theorem Piece.eq_spelling {p : Text} {s : Symbol} (h : Piece p (.token (.symbol s))) :
    p = s.spelling := by
  cases h
  rfl

/-- The characters of a number or of a word. -/
theorem Piece.isWordPart_or_point {p : Text} {d : TokenData} (h : Piece p (.token d))
    (hd : (∃ n, d = .number n) ∨ (∃ k, d = .keyword k) ∨ d = .identifier) :
    ∀ c ∈ p, isWordPart c = true ∨ c = '.' := by
  have hdigits : ∀ {w : Text}, IsDigits w → ∀ c ∈ w, isWordPart c = true := fun hw c hc => by
    rw [isWordPart, hw.digit c hc, Bool.or_true]
  cases h with
  | symbol | quoted => simp at hd
  | integer hw => exact fun c hc => .inl (hdigits hw c hc)
  | decimal hw hf =>
    intro c hc
    rcases List.mem_append.1 hc with hc | hc
    · exact .inl (hdigits hw c hc)
    · rcases List.mem_cons.1 hc with rfl | hc
      · exact .inr rfl
      · exact .inl (hdigits hf c hc)
  | keyword k =>
    obtain ⟨c, t, hk, hc, ht⟩ := exists_spelling_eq_cons k
    rw [hk]
    exact fun d hd => .inl (isWordPart_of_mem hc ht d hd)
  | identifier hc ht => exact fun d hd => .inl (isWordPart_of_mem hc ht d hd)

/-- No lexeme but a string holds a blank. -/
theorem Piece.not_isBlank {p : Text} {d : TokenData} (h : Piece p (.token d))
    (hd : ∀ v, d ≠ .str v) : ∀ c ∈ p, isBlank c = false := by
  have hatom : (∃ n, d = .number n) ∨ (∃ k, d = .keyword k) ∨ d = .identifier →
      ∀ c ∈ p, isBlank c = false := by
    intro hd c hc
    rcases h.isWordPart_or_point hd c hc with hpart | rfl
    · exact not_isBlank_of_isWordPart hpart
    · rfl
  cases d with
  | symbol s =>
    have hall : s.spelling.all (fun c => !isBlank c) = true := by cases s <;> decide
    rw [h.eq_spelling]
    exact fun c hc => by simpa using List.all_eq_true.1 hall c hc
  | keyword k => exact hatom (.inr (.inl ⟨k, rfl⟩))
  | identifier => exact hatom (.inr (.inr rfl))
  | str v => exact absurd rfl (hd v)
  | number n => exact hatom (.inl ⟨n, rfl⟩)
  | eof => exact absurd rfl h.ne_eof

/-- So none but a string goes over the end of a line. -/
theorem Piece.lineFeed_not_mem {p : Text} {d : TokenData} (h : Piece p (.token d))
    (hd : ∀ v, d ≠ .str v) : '\n' ∉ p := fun hmem =>
  absurd (h.not_isBlank hd '\n' hmem) (by decide)

/-- The literals of lexemes are such as a tree of a source has. -/
theorem Piece.lexical {p : Text} {d : TokenData} (h : Piece p (.token d)) {v : Literal}
    (hv : d.literal? = some v) : v.Lexical := by
  have hrule := TokenData.literal?_eq_some_iff.1 hv
  cases hrule with
  | falseWord | trueWord | nilWord => trivial
  | number =>
    generalize hd : TokenData.number _ = d at h
    cases h <;> cases hd
    · exact Numeral.exists_value_eq _
    · exact Numeral.exists_value_eq _
  | str =>
    cases h with
    | quoted hq => exact hq

end Lexical

open Lexical Grammar

/-- A scan ends with the end marker, on the last line. -/
theorem tokens_scan (source : Text) :
    (scan source).tokens = tokensOf source ++ [Token.eof (1 + Text.lineBreaks source)] := rfl

/-- No other token of it is one. -/
theorem not_isEof_of_mem_tokensOf {source : Text} {t : Token} (h : t ∈ tokensOf source) :
    t.isEof = false := by
  simpa [Token.isEof] using (piece_of_mem_tokensOf h).ne_eof

/-- A parser of a scan sees the tokens of the source. -/
theorem ahead_ofTokens_scan (source : Text) :
    (TokenStream.ofTokens (scan source).tokens).ahead = tokensOf source := by
  have hkeep : ∀ t ∈ tokensOf source, (!t.isEof) = true := fun t ht => by
    rw [not_isEof_of_mem_tokensOf ht, Bool.not_false]
  rw [TokenStream.ofTokens, tokens_scan, List.takeWhile_append_of_pos hkeep]
  simp [Token.isEof, Token.eof]

/-- And the end of the tokens is on the last line of the source. -/
theorem endLine_ofTokens_scan (source : Text) :
    (TokenStream.ofTokens (scan source).tokens).endLine = 1 + Text.lineBreaks source := by
  have hnone : (tokensOf source).find? Token.isEof = none :=
    List.find?_eq_none.2 fun t ht => by simp [not_isEof_of_mem_tokensOf ht]
  simp [TokenStream.ofTokens, TokenStream.endLineOf, tokens_scan, List.find?_append, hnone,
    Token.isEof, Token.eof]

theorem parse_scan_eq_ok_iff {source : Text} {e : Expr} :
    (TokenStream.ofTokens (scan source).tokens).parse.1 = .ok e ↔
      ∃ c rest, tokensOf source = c ++ rest ∧ Derives .comma c e ∧
        ∀ t ∈ rest.head?, ¬ IsBinaryOperator t := by
  have hstream : (TokenStream.ofTokens (scan source).tokens).parse.1 = .ok e ↔
      ∃ s', (TokenStream.ofTokens (scan source).tokens).parse = (.ok e, s') :=
    ⟨fun h => ⟨_, Prod.ext h rfl⟩, fun ⟨_, h⟩ => congrArg Prod.fst h⟩
  rw [hstream]
  simp only [TokenStream.parse_eq_ok_iff, descent_comma_iff, ahead_ofTokens_scan]
  constructor
  · rintro ⟨_, rest, -, c, h⟩
    exact ⟨c, rest, h⟩
  · rintro ⟨c, rest, h⟩
    exact ⟨_, rest, rfl, c, h⟩

/-- **A source parses exactly if** it has no fault and its first tokens derive the tree, with no
binary operator behind them. -/
theorem parseSource_eq_ok_iff {source : Text} {e : Expr} :
    parseSource source = .ok e ↔
      (scan source).diagnostics = [] ∧
        ∃ c rest, tokensOf source = c ++ rest ∧ Derives .comma c e ∧
          ∀ t ∈ rest.head?, ¬ IsBinaryOperator t := by
  rw [← parse_scan_eq_ok_iff]
  simp only [parseSource]
  generalize (TokenStream.ofTokens (scan source).tokens).parse.1 = item
  generalize (scan source).diagnostics = ds
  cases item with
  | error x => simp [Item.expr?, outcome]
  | ok e' => cases ds <;> simp [Item.expr?, Item.diagnostics, Item.error?, outcome]

/-- **What is reported about a source that does not parse**: the reports of its scan, and behind them
the error of its tokens, if there is one. -/
theorem eq_of_parseSource_eq_error {source : Text} {ds : Diagnostics}
    (h : parseSource source = .error ds) :
    ds = (scan source).diagnostics ++
      (TokenStream.ofTokens (scan source).tokens).parse.1.diagnostics := by
  simp only [parseSource, outcome] at h
  split at h
  · cases h
  · exact (Except.error.inj h).symm

/-- A tree that evaluation finds is the tree of the source. -/
theorem parseSource_eq_ok_of_toOption {source : Text} {e : Expr}
    (h : (parseSource source).toOption = some e) : parseSource source = .ok e := by
  cases hp : parseSource source with
  | error ds =>
    rw [hp] at h
    cases h
  | ok e' =>
    rw [hp] at h
    exact congrArg Except.ok (Option.some.inj h)

/-- The tokens that a tree was read from are lexemes, and part of the source. -/
theorem exists_tokens_of_parseSource {source : Text} {e : Expr} (h : parseSource source = .ok e) :
    ∃ c, Derives .comma c e ∧ (∀ t ∈ c, t ∈ tokensOf source) ∧
      (∀ t ∈ c, Piece t.lexeme (.token t.data)) ∧
      List.Sublist (c.map Token.lexeme).flatten source := by
  obtain ⟨-, c, rest, htokens, hder, -⟩ := parseSource_eq_ok_iff.1 h
  have hmem : ∀ t ∈ c, t ∈ tokensOf source := fun t ht =>
    htokens ▸ List.mem_append_left rest ht
  refine ⟨c, hder, hmem, fun t ht => piece_of_mem_tokensOf (hmem t ht), ?_⟩
  have hsub := lexemes_sublist source
  rw [htokens, List.map_append, List.flatten_append] at hsub
  exact (List.sublist_append_left _ _).trans hsub

/-- **The tree of a source is made of parts such as a scan gives.** -/
theorem lexical_of_parseSource {source : Text} {e : Expr} (h : parseSource source = .ok e) :
    e.Lexical := by
  obtain ⟨c, hder, -, hpiece, -⟩ := exists_tokens_of_parseSource h
  constructor
  · intro v hv
    rw [hder.literals_eq] at hv
    obtain ⟨t, ht, hv⟩ := List.mem_filterMap.1 hv
    exact (hpiece t ht).lexical hv
  · intro o ho
    obtain ⟨hmem, ⟨s, hs⟩, -⟩ := hder.mem_of_mem_operators o ho
    exact ⟨s, hs, (hs ▸ hpiece o hmem).eq_spelling⟩

end Lox
