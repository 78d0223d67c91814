import Lox.Proofs.Grammar.Stopping
import Lox.Proofs.Lexical.Tokens
/-!
# Lines

The segments of a cut follow each other without gap, so a segment starts on
the line that the line breaks before it say, and stops on the line that those
up to its end say. A token is on the first of these lines and a fault on the
second, which for a single character is the same line and for what is never
closed the last one of the source.
-/


namespace Lox

namespace Segment

open Lexical

/-- The text of some segments. -/
def textOf (segs : List Segment) : Text := (segs.map lexeme).flatten

@[simp] theorem textOf_nil : textOf [] = [] := rfl

@[simp] theorem textOf_cons (s : Segment) (segs : List Segment) :
    textOf (s :: segs) = s.lexeme ++ textOf segs := rfl

theorem line_stop (s : Segment) : s.stop.line = s.start.line + Text.lineBreaks s.lexeme := rfl

/-- The segments of a cut make up the text. -/
theorem textOf_cut (p : Position) : textOf (cut p) = p.ahead := by
  induction p using cut_induction with
  | nil p h => rw [h, textOf_nil]
  | cons s _ hahead _ ih => rw [textOf_cons, ih, hahead]

theorem lexeme_ne_nil (p : Position) : ∀ s ∈ cut p, s.lexeme ≠ [] := by
  induction p using cut_induction with
  | nil => nofun
  | cons s hne _ _ ih => exact List.forall_mem_cons.2 ⟨hne, ih⟩

/-! ## Where a segment starts -/

/-- **What stands before a segment fixes its line**, and it stands in front of what is behind. -/
theorem of_cut_eq_append {p : Position} {before after : List Segment} {s : Segment}
    (h : cut p = before ++ s :: after) :
    s.start.line = p.line + Text.lineBreaks (textOf before) ∧
      Stands (s.lexeme ++ textOf after) s.lexeme s.finding := by
  induction p using cut_induction generalizing before with
  | nil => simp at h
  | cons s' _ hahead hstands ih =>
    cases before with
    | nil =>
      rw [List.nil_append, List.cons.injEq] at h
      obtain ⟨rfl, hafter⟩ := h
      rw [← hafter, textOf_cut, ← hahead]
      exact ⟨by simp, hstands⟩
    | cons s'' before =>
      rw [List.cons_append, List.cons.injEq] at h
      obtain ⟨rfl, hcut⟩ := h
      obtain ⟨hline, hstands⟩ := ih hcut
      refine ⟨?_, hstands⟩
      rw [hline, line_stop, textOf_cons, Text.lineBreaks_append, Nat.add_assoc]

/-- The segments of a cut lie on the lines of its text. -/
theorem lines_of_mem_cut (p : Position) :
    ∀ s ∈ cut p, p.line ≤ s.start.line ∧ s.stop.line ≤ p.line + Text.lineBreaks p.ahead := by
  induction p using cut_induction with
  | nil => nofun
  | cons s _ hahead _ ih =>
    have hstop := line_stop s
    rw [hahead, Text.lineBreaks_append]
    refine List.forall_mem_cons.2 ⟨⟨Nat.le_refl _, by omega⟩, fun s' hs' => ?_⟩
    obtain ⟨hfirst, hlast⟩ := ih s' hs'
    omega

/-- **Segments follow each other line by line.** -/
theorem pairwise_cut (p : Position) :
    (cut p).Pairwise fun s s' => s.stop.line ≤ s'.start.line := by
  induction p using cut_induction with
  | nil => exact List.Pairwise.nil
  | cons s _ _ _ ih => exact List.pairwise_cons.2 ⟨fun s' hs' => (lines_of_mem_cut _ s' hs').1, ih⟩

/-! ## Tokens and reports -/

theorem exists_of_token? {s : Segment} {t : Token} (h : s.token? = some t) :
    ∃ d, s.finding = .token d ∧ t = ⟨d, s.lexeme, s.start.line⟩ := by
  obtain ⟨p, f, n⟩ := s
  cases f with
  | token d =>
    cases h
    exact ⟨d, rfl, rfl⟩
  | _ => cases h

theorem exists_of_diagnostic? {s : Segment} {d : Diagnostic} (h : s.diagnostic? = some d) :
    ∃ error, s.finding = .fault error ∧ d = ⟨s.stop.line, [], error.message⟩ := by
  obtain ⟨p, f, n⟩ := s
  cases f with
  | fault error =>
    cases h
    exact ⟨error, rfl, rfl⟩
  | _ => cases h

/-- An element of what is picked from a list was picked at some place of the list. -/
theorem exists_of_getElem?_filterMap {α β : Type} {f : α → Option β} {l : List α} {i : Nat} {b : β}
    (h : (l.filterMap f)[i]? = some b) :
    ∃ before a after, l = before ++ a :: after ∧ (before.filterMap f).length = i ∧ f a = some b := by
  induction l generalizing i with
  | nil => simp at h
  | cons a l ih =>
    cases hf : f a with
    | none =>
      rw [List.filterMap_cons_none hf] at h
      obtain ⟨before, a', after, rfl, hlen, hb⟩ := ih h
      exact ⟨a :: before, a', after, rfl, by rw [List.filterMap_cons_none hf, hlen], hb⟩
    | some c =>
      rw [List.filterMap_cons_some hf] at h
      cases i with
      | zero =>
        rw [List.getElem?_cons_zero] at h
        exact ⟨[], a, l, rfl, rfl, hf.trans h⟩
      | succ i =>
        rw [List.getElem?_cons_succ] at h
        obtain ⟨before, a', after, rfl, hlen, hb⟩ := ih h
        refine ⟨a :: before, a', after, rfl, ?_, hb⟩
        rw [List.filterMap_cons_some hf, List.length_cons, hlen]

end Segment

namespace Lexical

open Segment

/-! ## The line of a fault -/

/-- No line feed is a character that starts nothing. -/
theorem Stands.eq_singleton {r t : Text} {c : Char}
    (h : Stands r t (.fault (.unexpectedCharacter c))) : t = [c] ∧ Text.lineBreaks t = 0 := by
  cases h with
  | unexpected _ hnone =>
    refine ⟨rfl, List.count_eq_zero.2 fun hmem => ?_⟩
    cases List.mem_singleton.1 hmem
    exact hnone ['\n'] .trivia (.blank (by decide)) ⟨_, rfl⟩
  | longest _ hp => cases hp

/-- What is never closed takes all that is left. -/
theorem Stands.eq_self {r t : Text} {error : ScanError} (h : Stands r t (.fault error))
    (herror : error = .unterminatedString ∨ error = .unterminatedBlockComment) : t = r := by
  cases h with
  | unterminatedString => rfl
  | unterminatedBlockComment => rfl
  | longest _ hp => cases hp
  | unexpected => simp at herror

/-- **Where a fault of a source is reported**: a single character on its own line, and what is never
closed on the last line. -/
theorem line_of_fault {source : Text} {before after : List Segment} {s : Segment}
    {error : ScanError} (h : cut (.start source) = before ++ s :: after)
    (hs : s.finding = .fault error) :
    (∀ c, error = .unexpectedCharacter c → s.lexeme = [c] ∧
      s.stop.line = 1 + Text.lineBreaks (textOf before)) ∧
    (error = .unterminatedString ∨ error = .unterminatedBlockComment →
      s.stop.line = 1 + Text.lineBreaks source) := by
  obtain ⟨hline, hstands⟩ := of_cut_eq_append h
  rw [hs] at hstands
  constructor
  · rintro c rfl
    obtain ⟨hlexeme, hbreaks⟩ := hstands.eq_singleton
    refine ⟨hlexeme, ?_⟩
    rw [line_stop, hline, hbreaks]
    rfl
  · intro herror
    have hwhole : source = textOf before ++ (s.lexeme ++ textOf after) := by
      have htext : textOf (cut (.start source)) = source := textOf_cut _
      rw [← htext, h]
      simp [textOf]
    rw [hwhole, ← hstands.eq_self herror, line_stop, hline, Text.lineBreaks_append, ← Nat.add_assoc]
    rfl

/-! ## The lines of a scan -/

theorem line_of_mem_tokensOf {source : Text} {t : Token} (h : t ∈ tokensOf source) :
    1 ≤ t.line ∧ t.line ≤ 1 + Text.lineBreaks source := by
  obtain ⟨s, hs, ht⟩ := List.mem_filterMap.1 h
  obtain ⟨d, -, rfl⟩ := exists_of_token? ht
  obtain ⟨hfirst, hlast⟩ := lines_of_mem_cut _ s hs
  rw [line_stop] at hlast
  exact ⟨hfirst, Nat.le_trans (Nat.le_add_right _ _) hlast⟩

theorem line_of_mem_diagnostics {source : Text} {d : Diagnostic}
    (h : d ∈ (scan source).diagnostics) : 1 ≤ d.line ∧ d.line ≤ 1 + Text.lineBreaks source := by
  obtain ⟨s, hs, hd⟩ := List.mem_filterMap.1 h
  obtain ⟨error, -, rfl⟩ := exists_of_diagnostic? hd
  obtain ⟨hfirst, hlast⟩ := lines_of_mem_cut _ s hs
  exact ⟨Nat.le_trans hfirst (Nat.le_add_right _ _), hlast⟩

/-- A token starts where its segment does. -/
theorem pairwise_tokensOf (source : Text) :
    (tokensOf source).Pairwise fun t t' => t.line ≤ t'.line := by
  refine (pairwise_cut (.start source)).filterMap _ ?_
  rintro s s' hss' t ht t' ht'
  obtain ⟨d, -, rfl⟩ := exists_of_token? ht
  obtain ⟨d', -, rfl⟩ := exists_of_token? ht'
  exact Nat.le_trans (line_stop s ▸ Nat.le_add_right _ _) hss'

/-- The end marker is behind all other tokens. -/
theorem pairwise_line_tokens (source : Text) :
    (scan source).tokens.Pairwise fun t t' => t.line ≤ t'.line := by
  rw [tokens_scan, List.pairwise_append]
  refine ⟨pairwise_tokensOf source, List.pairwise_singleton _ _, fun t ht m hm => ?_⟩
  cases List.mem_singleton.1 hm
  exact (line_of_mem_tokensOf ht).2

/-- A fault is reported where its segment stops. -/
theorem pairwise_line_diagnostics (source : Text) :
    (scan source).diagnostics.Pairwise fun d d' => d.line ≤ d'.line := by
  refine (pairwise_cut (.start source)).filterMap _ ?_
  rintro s s' hss' d hd d' hd'
  obtain ⟨error, -, rfl⟩ := exists_of_diagnostic? hd
  obtain ⟨error', -, rfl⟩ := exists_of_diagnostic? hd'
  exact Nat.le_trans hss' (line_stop s' ▸ Nat.le_add_right _ _)

/-! ## The line of a parse error -/

/-- No lexeme is called the end. -/
theorem location_ne_at_end {t : Token} (h : t.isEof = false) : t.location ≠ " at end".toList := by
  rw [Token.location_of_not_isEof h]
  simp

/-- **A source that does not parse is at fault on one of its lines**, and if it ends too early, on
the last one. -/
theorem line_of_parse_error {source : Text} {f : ParseError} {s' : TokenStream}
    (h : (TokenStream.ofTokens (scan source).tokens).parse = (.error f, s')) :
    (1 ≤ f.line ∧ f.line ≤ 1 + Text.lineBreaks source) ∧
      (f.location = " at end".toList → f.line = 1 + Text.lineBreaks source) := by
  obtain ⟨x, rest, rfl, -, hread⟩ := TokenStream.parse_eq_error_iff.1 h
  rw [ahead_ofTokens_scan] at hread
  obtain ⟨c, hc, -⟩ := hread.exists_passes
  cases rest with
  | nil =>
    have hline : (ParseError.atToken x
        ((TokenStream.ofTokens (scan source).tokens).withAhead []).peek).line =
          1 + Text.lineBreaks source := endLine_ofTokens_scan source
    rw [hline]
    exact ⟨⟨Nat.le_add_right _ _, Nat.le_refl _⟩, fun _ => rfl⟩
  | cons t us =>
    have hmem : t ∈ tokensOf source := by
      rw [hc]
      exact List.mem_append_right c List.mem_cons_self
    exact ⟨line_of_mem_tokensOf hmem,
      fun hend => absurd hend (location_ne_at_end (not_isEof_of_mem_tokensOf hmem))⟩

theorem line_of_parseSource_error {source : Text} {ds : Diagnostics} {d : Diagnostic}
    (h : parseSource source = .error ds) (hd : d ∈ ds) :
    (1 ≤ d.line ∧ d.line ≤ 1 + Text.lineBreaks source) ∧
      (d.location = " at end".toList → d.line = 1 + Text.lineBreaks source) := by
  rw [eq_of_parseSource_eq_error h] at hd
  rcases List.mem_append.1 hd with hscan | hparse
  · refine ⟨line_of_mem_diagnostics hscan, fun hend => ?_⟩
    obtain ⟨s, -, hs⟩ := List.mem_filterMap.1 hscan
    obtain ⟨error, -, rfl⟩ := exists_of_diagnostic? hs
    cases hend
  · obtain ⟨f, hf, rfl⟩ : ∃ f, (TokenStream.ofTokens (scan source).tokens).parse.1 = .error f ∧
        d = f.diagnostic := by
      cases hitem : (TokenStream.ofTokens (scan source).tokens).parse.1 with
      | ok e =>
        rw [hitem] at hparse
        cases hparse
      | error f =>
        rw [hitem] at hparse
        exact ⟨f, rfl, List.mem_singleton.1 hparse⟩
    exact line_of_parse_error (Prod.ext hf rfl)

/-! ## All lines -/

/-- **Line numbers are exact.** The segments of the source are the rounds of its scan. -/
structure ExactLines (source : Text) : Prop where
  /-- The rounds cover the source from left to right, without gap or overlap. -/
  cover : textOf (cut (.start source)) = source
  /-- And each of them takes something. -/
  nonempty : ∀ s ∈ cut (.start source), s.lexeme ≠ []
  /-- The token number `i` is that of a round. Its lexeme is the text of that round, and its line is
  the one on which the round starts. -/
  token : ∀ i t, (scan source).tokens[i]? = some t → t.isEof = false →
    ∃ before s after, cut (.start source) = before ++ s :: after ∧
      (before.filterMap token?).length = i ∧ s.token? = some t ∧
      t.lexeme = s.lexeme ∧ t.line = 1 + Text.lineBreaks (textOf before)
  /-- The end marker is the last token, and on the last line. -/
  marker : ∃ ts, (scan source).tokens = ts ++ [.eof (1 + Text.lineBreaks source)] ∧
    ∀ t ∈ ts, t.isEof = false
  /-- The report number `i` is about the fault of a round: a character that starts nothing, on its
  own line, or something that is never closed, on the last line. -/
  report : ∀ i d, (scan source).diagnostics[i]? = some d →
    ∃ before s after error, cut (.start source) = before ++ s :: after ∧
      (before.filterMap diagnostic?).length = i ∧
      s.finding = .fault error ∧ d.message = error.message ∧
      (∀ c, error = .unexpectedCharacter c →
        s.lexeme = [c] ∧ d.line = 1 + Text.lineBreaks (textOf before)) ∧
      (error = .unterminatedString ∨ error = .unterminatedBlockComment →
        d.line = 1 + Text.lineBreaks source)
  /-- Token lines never decrease. -/
  tokens_pairwise : (scan source).tokens.Pairwise fun t t' => t.line ≤ t'.line
  /-- Nor do the lines of the reports. -/
  reports_pairwise : (scan source).diagnostics.Pairwise fun d d' => d.line ≤ d'.line
  token_line : ∀ t ∈ (scan source).tokens, 1 ≤ t.line ∧ t.line ≤ 1 + Text.lineBreaks source
  report_line : ∀ d ∈ (scan source).diagnostics,
    1 ≤ d.line ∧ d.line ≤ 1 + Text.lineBreaks source
  /-- What parsing reports is about a line of the source, and about the last one if the source ends
  too early. -/
  parse_line : ∀ ds, parseSource source = .error ds → ∀ d ∈ ds,
    (1 ≤ d.line ∧ d.line ≤ 1 + Text.lineBreaks source) ∧
      (d.location = " at end".toList → d.line = 1 + Text.lineBreaks source)

/-- A token that is no end marker has its place among the tokens of the source. -/
theorem getElem?_tokensOf {source : Text} {i : Nat} {t : Token}
    (h : (scan source).tokens[i]? = some t) (ht : t.isEof = false) :
    (tokensOf source)[i]? = some t := by
  rw [tokens_scan, List.getElem?_append] at h
  split at h
  · exact h
  · have hmem := List.mem_of_getElem? h
    cases List.mem_singleton.1 hmem
    cases ht

/-- **Every source has exact lines.** -/
theorem exactLines_scan (source : Text) : ExactLines source where
  cover := textOf_cut _
  nonempty := lexeme_ne_nil _
  token := by
    intro i t h ht
    obtain ⟨before, s, after, hcut, hlen, hs⟩ :=
      exists_of_getElem?_filterMap (getElem?_tokensOf h ht)
    obtain ⟨hline, -⟩ := of_cut_eq_append hcut
    obtain ⟨d, -, rfl⟩ := exists_of_token? hs
    exact ⟨before, s, after, hcut, hlen, hs, rfl, hline⟩
  marker := ⟨tokensOf source, tokens_scan source, fun t ht => not_isEof_of_mem_tokensOf ht⟩
  report := by
    intro i d h
    obtain ⟨before, s, after, hcut, hlen, hs⟩ := exists_of_getElem?_filterMap h
    obtain ⟨error, herror, rfl⟩ := exists_of_diagnostic? hs
    obtain ⟨hchar, hopen⟩ := line_of_fault hcut herror
    exact ⟨before, s, after, error, hcut, hlen, herror, rfl, hchar, hopen⟩
  tokens_pairwise := pairwise_line_tokens source
  reports_pairwise := pairwise_line_diagnostics source
  token_line := by
    rw [tokens_scan]
    refine List.forall_mem_append.2 ⟨fun t => line_of_mem_tokensOf, ?_⟩
    exact List.forall_mem_singleton.2 ⟨Nat.le_add_right _ _, Nat.le_refl _⟩
  report_line := fun d => line_of_mem_diagnostics
  parse_line := fun ds h d => line_of_parseSource_error h

/-- The string starts on the second line, and what is never closed is reported on the last. -/
example :
    (scan "1\n\"a\nb\" @\n/* ".toList).tokens.map Token.line = [1, 2, 4] ∧
      (scan "1\n\"a\nb\" @\n/* ".toList).diagnostics.map Diagnostic.line = [3, 4] := by
  decide +kernel

end Lexical

end Lox
