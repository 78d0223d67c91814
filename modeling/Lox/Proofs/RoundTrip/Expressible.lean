import Lox.Proofs.RoundTrip.Characters
import Lox.Proofs.RoundTrip.Rescan
import Lox.Proofs.Tree.Equality
/-!
# Which trees come back from their flat text

A tree of a source comes back from its flat text, with every operator on the
first line, exactly if it has no string, no nil and no infinite number. If it
has none of them, the text is cut into the tokens it was rendered from and
these derive the tree again. A tree with a string or a nil needs characters
of its source that flat text does not have; and of the tokens of flat text
none is an infinite number.
-/


namespace Lox

open Lexical Grammar

/-- Of the tokens of a tree only strings and nils are not rendered as a lexeme. -/
theorem Token.isVisible_of_piece {t : Token} (hp : Piece t.lexeme (.token t.data))
    (ht : (∃ s, t.data = .symbol s) ∨ ∃ v, LiteralRule t.data v)
    (hstr : ∀ v, t.literal? ≠ some (.str v)) (hnil : t.literal? ≠ some .nil) : t.IsVisible := by
  rcases ht with ⟨s, hs⟩ | ⟨v, hv⟩
  · exact .symbol hs (hs ▸ hp).eq_spelling
  · have hlexical := hp.lexical hv.literal?_eq
    have hv' := hv.literal?_eq
    generalize hd : t.data = d at hv
    cases hv with
    | falseWord => exact .falseWord hd
    | trueWord => exact .trueWord hd
    | nilWord => exact absurd hv' hnil
    | number n =>
      obtain ⟨m, rfl⟩ := hlexical
      exact .number hd
    | str v => exact absurd hv' (hstr v)

theorem TokenData.echo_eq_self {d : TokenData} (h : ∀ n, d = .number n → n.isFinite = true) :
    d.echo = d := by
  cases d with
  | number n => rw [echo, if_pos (h n rfl)]
  | _ => rfl

/-- No token of flat text is an infinite number. -/
theorem TokenData.isFinite_of_echo_eq {d : TokenData} {n : Number} (h : d.echo = .number n) :
    n.isFinite = true := by
  cases d with
  | number m =>
    rw [echo] at h
    split at h
    · cases h
      assumption
    · cases h
  | _ => cases h

/-- An operator read again is the operator on the new line. -/
theorem Grammar.Derives.mapOperators_reread {n : Nonterminal} {c : List Token} {e : Expr}
    (h : Derives n c e) (k : Nat) : e.mapOperators (Token.reread k) = e.onLine k := by
  refine Expr.mapOperators_congr fun o ho => ?_
  obtain ⟨-, ⟨s, hs⟩, hrendered⟩ := h.mem_of_mem_operators o ho
  rw [Token.reread, hrendered, Token.IsVisible.echo_of_symbol hs, hs]

section

variable {source : Text} {e : Expr}

/-- A tree without a string and a nil was read from visible tokens. -/
theorem exists_visible_tokens (h : parseSource source = .ok e)
    (hstr : ∀ v, Literal.str v ∉ e.literals) (hnil : Literal.nil ∉ e.literals) :
    ∃ c, Derives .comma c e ∧ ∀ t ∈ c, t.IsVisible := by
  obtain ⟨c, hder, -, hpiece, -⟩ := exists_tokens_of_parseSource h
  have hmem : ∀ t ∈ c, ∀ v, t.literal? = some v → v ∈ e.literals := by
    intro t ht v hv
    rw [hder.literals_eq]
    exact List.mem_filterMap.2 ⟨t, ht, hv⟩
  refine ⟨c, hder, fun t ht => ?_⟩
  exact Token.isVisible_of_piece (hpiece t ht) (hder.isTerminal t ht).symbol_or_literal
    (fun v hv => hstr v (hmem t ht _ hv)) fun hv => hnil (hmem t ht _ hv)

/-- **What flat text can express comes back**, on the first line. -/
theorem parseSource_of_expressible (h : parseSource source = .ok e) (he : e.Expressible) :
    parseSource e.infixText = .ok (e.onLine 1) := by
  obtain ⟨c, hder, hv⟩ := exists_visible_tokens h he.str he.nil
  obtain ⟨htokens, hreports⟩ := scan_flatten_rendered hder hv
  have hdata : ∀ t ∈ c, (t.reread 1).data = t.data := by
    intro t ht
    refine TokenData.echo_eq_self fun n hn => he.infinite n ?_
    rw [hder.literals_eq]
    refine List.mem_filterMap.2 ⟨t, ht, ?_⟩
    rw [Token.literal?, hn]
    rfl
  have hagain := hder.map (Token.reread 1) hdata
  rw [hder.mapOperators_reread 1] at hagain
  rw [hder.infixText_eq, parseSource_eq_ok_iff]
  refine ⟨hreports, c.map (Token.reread 1), [], ?_, hagain, fun t ht => absurd ht (by simp)⟩
  rw [htokens, List.append_nil]

/-- **Nothing else comes back**: a tree with the same literals is read from its flat text only if
the text can express it. -/
theorem expressible_of_parseSource (h : parseSource source = .ok e) {e' : Expr}
    (h' : parseSource e.infixText = .ok e') (hlit : e'.literals = e.literals) :
    e.Expressible := by
  have hlexical := lexical_of_parseSource h
  -- a string would be read from a quote
  have hstr : ∀ v, Literal.str v ∉ e.literals := by
    intro v hv
    rw [← hlit] at hv
    exact hlexical.quote_not_mem (quote_mem_of_parseSource h' hv)
  -- every nil would be read from an `l` of its own, besides those of the falses
  have hnil : Literal.nil ∉ e.literals := by
    intro hmem
    have hcount := count_l_of_parseSource h'
    rw [hlexical.count_l hstr, hlit] at hcount
    have hpos := List.count_pos_iff.2 hmem
    omega
  refine ⟨hstr, hnil, fun n hn => ?_⟩
  -- with the tokens of the text known, a number of the tree is one of theirs
  obtain ⟨c, hder, hv⟩ := exists_visible_tokens h hstr hnil
  obtain ⟨c', hder', hmem', -, -⟩ := exists_tokens_of_parseSource h'
  rw [← hlit, hder'.literals_eq] at hn
  obtain ⟨t', ht', hn⟩ := List.mem_filterMap.1 hn
  have htokens := hmem' t' ht'
  rw [hder.infixText_eq, (scan_flatten_rendered hder hv).1] at htokens
  obtain ⟨t, -, rfl⟩ := List.mem_map.1 htokens
  have hrule := TokenData.literal?_eq_some_iff.1 hn
  generalize hd : (t.reread 1).data = d at hrule
  cases hrule
  exact TokenData.isFinite_of_echo_eq hd

/-- **Flat text brings back exactly what it can express.** A tree that is the same but for the lines
of its operators is read from the flat text of a tree of a source if and only if that tree has no
string, no nil and no infinite number; then it is the tree with all operators on the first line. So
the tree itself is read again, as the comparison of outcomes has it, if and only if its operators
are on the first line besides. -/
theorem parseSource_infixText_iff (h : parseSource source = .ok e) :
    ((∃ e', parseSource e.infixText = .ok e' ∧ e'.onLine 1 = e.onLine 1) ↔ e.Expressible) ∧
      (e.Expressible → parseSource e.infixText = .ok (e.onLine 1)) ∧
      (equalOutcomes (parseSource e.infixText) (.ok e) = true ↔
        e.Expressible ∧ ∀ o ∈ e.operators, o.line = 1) := by
  have hlexical := lexical_of_parseSource h
  refine ⟨⟨?_, fun he => ?_⟩, parseSource_of_expressible h, ⟨fun hsame => ?_, ?_⟩⟩
  · rintro ⟨e', h', hline⟩
    refine expressible_of_parseSource h h' ?_
    rw [← Expr.literals_onLine 1 e', hline, Expr.literals_onLine]
  · have hagain := parseSource_of_expressible h he
    exact ⟨e.onLine 1, hagain, Expr.onLine_onLine 1 e⟩
  · cases h' : parseSource e.infixText with
    | error ds =>
      rw [h'] at hsame
      cases hsame
    | ok e' =>
      rw [h', equalOutcomes] at hsame
      have heq := (Expr.equal_iff_eq (lexical_of_parseSource h') hlexical).1 hsame
      subst heq
      have he := expressible_of_parseSource h h' rfl
      have hagain := parseSource_of_expressible h he
      rw [h', Except.ok.injEq] at hagain
      exact ⟨he, Expr.onLine_eq_self_iff.1 hagain.symm⟩
  · rintro ⟨he, hlines⟩
    rw [parseSource_of_expressible h he, Expr.onLine_eq_self_iff.2 hlines, equalOutcomes,
      Expr.equal_iff_eq hlexical hlexical]

end

/-- A minus on the second line is read again on the first, so the tree itself does not come back. -/
theorem parseSource_infixText_second_line :
    ∃ e, parseSource "1.5,\n-(2)".toList = .ok e ∧
      parseSource e.infixText = .ok (e.onLine 1) ∧
      equalOutcomes (parseSource e.infixText) (.ok e) = false := by
  let threeHalves : Number := .ofBits 0x3ff8000000000000
  let two : Number := .ofBits 0x4000000000000000
  let e : Expr :=
    .binary (.literal (.number threeHalves)) ⟨.symbol .comma, [','], 1⟩
      (.unary ⟨.symbol .minus, ['-'], 2⟩ (.group (.literal (.number two))))
  have h : parseSource "1.5,\n-(2)".toList = .ok e := by
    have hsome : (parseSource "1.5,\n-(2)".toList).toOption = some e := by decide +kernel
    cases hp : parseSource "1.5,\n-(2)".toList with
    | error ds =>
      rw [hp] at hsome
      cases hsome
    | ok e' =>
      rw [hp] at hsome
      exact congrArg Except.ok (Option.some.inj hsome)
  have he : e.Expressible := by
    refine ⟨by simp [e, Expr.literals], by decide, fun n hn => ?_⟩
    have hn : n = threeHalves ∨ n = two := by simpa [e, Expr.literals] using hn
    rcases hn with rfl | rfl <;> decide
  have hline : ¬ ∀ o ∈ e.operators, o.line = 1 := by decide
  obtain ⟨-, hagain, hsame⟩ := parseSource_infixText_iff h
  refine ⟨e, h, hagain he, ?_⟩
  rw [← Bool.not_eq_true, hsame]
  exact fun hall => hline hall.2

end Lox
