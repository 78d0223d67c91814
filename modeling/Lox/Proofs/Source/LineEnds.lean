import Lox.Proofs.Lexical.LineEnds
import Lox.Proofs.Lexical.Strays
/-!
# Line ends and parsing

Whether the lines of a source end with a line feed alone or with a carriage
return in front of it makes no difference but within strings. The tokens are
the same on the same lines, the reports are the same on the same lines, and
the tree is the same, each but for the line ends in strings.
-/


namespace Lox

open Lexical

open Text (unifyLineEnds)

/-- `t'` is the token `t` with its line ends unified, which only a string can have. -/
structure Token.Unified (t t' : Token) : Prop where
  kind : t'.data.name = t.data.name
  line : t'.line = t.line
  lexeme : t'.lexeme = unifyLineEnds t.lexeme
  string : ∀ v, t.data = .str v → t'.data = .str (unifyLineEnds v)
  other : (∀ v, t.data ≠ .str v) → t' = t

/-! ## Outcomes -/

/-- An outcome is a success if there is nothing to report. -/
theorem toOption_outcome {α : Type} (value : Option α) (ds : Diagnostics) :
    (outcome value ds).toOption = if ds.isEmpty then value else none := by
  cases value <;> cases ds <;> rfl

/-- What there is to report is reported. -/
theorem reportsOf_outcome {α : Type} (value : Option α) (ds : Diagnostics) :
    reportsOf (outcome value ds) = ds := by
  cases value <;> cases ds <;> rfl

/-! ## The tokens -/

/-- **A scan sees the line ends in strings alone.** -/
theorem scan_unifyLineEnds (source : Text) :
    scan (unifyLineEnds source) =
      ⟨(scan source).tokens.map (Token.mapString unifyLineEnds), (scan source).diagnostics⟩ := by
  obtain ⟨segs, hsegs⟩ := exists_segmented source
  obtain ⟨segs', hsegs', hviews⟩ := hsegs.unified
  obtain ⟨htok, hrep⟩ := hviews 1
  rw [scan_of_segmented hsegs', scan_of_segmented hsegs, htok, hrep,
    Text.lineBreaks_unifyLineEnds, List.map_append]
  rfl

/-- The lexeme of a token of a source has no line ends, unless the token is a string. -/
theorem unifyLineEnds_lexeme {source : Text} {t : Token} (h : t ∈ (scan source).tokens)
    (ht : ∀ v, t.data ≠ .str v) : unifyLineEnds t.lexeme = t.lexeme := by
  rw [tokens_scan] at h
  rcases List.mem_append.1 h with h | h
  · exact (piece_of_mem_tokensOf h).unifyLineEnds_eq_self ht
  · rw [List.mem_singleton.1 h]
    rfl

theorem unified_mapString {source : Text} {t : Token} (h : t ∈ (scan source).tokens) :
    t.Unified (t.mapString unifyLineEnds) where
  kind := by rw [Token.data_mapString, TokenData.name_mapString]
  line := Token.line_mapString
  lexeme := Token.lexeme_mapString (unifyLineEnds_lexeme h)
  string v hv := by
    rw [Token.data_mapString, hv]
    rfl
  other := Token.mapString_eq_self

/-! ## The tree -/

/-- **Line ends make no difference but within strings.** With its line ends unified a source has the
same number of tokens, each with its line ends unified, and its scan reports the same. It parses
exactly if it did before, as the tree with the line ends in its strings unified; if it does not, the
reports are on the same lines and give the same reasons, and only the place that one names can
differ, where that is a string. -/
theorem parseSource_unifyLineEnds (source : Text) :
    List.Forall₂ Token.Unified (scan source).tokens (scan (unifyLineEnds source)).tokens ∧
      (scan (unifyLineEnds source)).diagnostics = (scan source).diagnostics ∧
      (parseSource (unifyLineEnds source)).toOption =
        (parseSource source).toOption.map (Expr.mapStrings unifyLineEnds) ∧
      (reportsOf (parseSource (unifyLineEnds source))).map Diagnostic.unlocated =
        (reportsOf (parseSource source)).map Diagnostic.unlocated := by
  have hscan := scan_unifyLineEnds source
  obtain ⟨hexpr, hreports⟩ :=
    (TokenStream.ofTokens (scan source).tokens).parse_mapStrings unifyLineEnds
  rw [← TokenStream.ofTokens_map_mapString] at hexpr hreports
  have hunlocated : (reportsOf (parseSource (unifyLineEnds source))).map Diagnostic.unlocated =
      (reportsOf (parseSource source)).map Diagnostic.unlocated := by
    rw [parseSource, parseSource, reportsOf_outcome, reportsOf_outcome, hscan, List.map_append,
      List.map_append, hreports]
  refine ⟨?_, by rw [hscan], ?_, hunlocated⟩
  · rw [hscan, List.forall₂_map_right_iff]
    exact List.forall₂_same.2 fun t ht => unified_mapString ht
  · have hempty := congrArg List.isEmpty hunlocated
    rw [List.isEmpty_map, List.isEmpty_map, parseSource, parseSource, reportsOf_outcome,
      reportsOf_outcome] at hempty
    rw [parseSource, parseSource, toOption_outcome, toOption_outcome, hempty, hscan, hexpr]
    split <;> rfl

/-- The two line ends in the string are in the tree, and the other one is not. -/
example :
    ((parseSource "\"a\r\nb\r\r\n\"\r\n".toList).toOption,
      (parseSource (unifyLineEnds "\"a\r\nb\r\r\n\"\r\n".toList)).toOption) =
      (some (.literal (.str "a\r\nb\r\r\n".toList)), some (.literal (.str "a\nb\r\n".toList))) := by
  decide +kernel

end Lox
