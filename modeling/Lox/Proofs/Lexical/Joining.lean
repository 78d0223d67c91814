import Lox.Proofs.Lexical.Lookahead
import Lox.Proofs.Lexical.Segmentation
/-!
# Texts joined at a line break

A line feed ends whatever a text leaves unfinished, but for a quotation or a
block comment that is never closed. So a text in front of a line feed is cut
as it is alone, and what stands behind the line feed is cut as it is alone,
only on later lines.
-/


namespace Lox

/-- The same token, `n` lines further down. -/
def Token.later (n : Nat) (t : Token) : Token := { t with line := t.line + n }

/-- The same report, `n` lines further down. -/
def Diagnostic.later (n : Nat) (d : Diagnostic) : Diagnostic := { d with line := d.line + n }

namespace Lexical

/-! ## Tokens and reports of segments in a row -/

/-- The text of some segments. -/
def joined (segs : List (Text × Finding)) : Text := (segs.map Prod.fst).flatten

/-- **Segments behind others** give what they give alone, on the lines that come behind. -/
theorem views_append (segs segs' : List (Text × Finding)) (k : Nat) :
    tokensFrom k (segs ++ segs') =
        tokensFrom k segs ++ tokensFrom (k + Text.lineBreaks (joined segs)) segs' ∧
      reportsFrom k (segs ++ segs') =
        reportsFrom k segs ++ reportsFrom (k + Text.lineBreaks (joined segs)) segs' := by
  induction segs generalizing k with
  | nil => exact ⟨rfl, rfl⟩
  | cons s segs ih =>
    obtain ⟨t, f⟩ := s
    obtain ⟨htok, hrep⟩ := ih (k + Text.lineBreaks t)
    rw [Nat.add_assoc, ← Text.lineBreaks_append] at htok hrep
    cases f with
    | token d => exact ⟨congrArg (_ :: ·) htok, hrep⟩
    | trivia => exact ⟨htok, hrep⟩
    | fault e => exact ⟨htok, congrArg (_ :: ·) hrep⟩

/-- **Segments that start further down** give the same, further down. -/
theorem views_add (segs : List (Text × Finding)) (k n : Nat) :
    tokensFrom (k + n) segs = (tokensFrom k segs).map (Token.later n) ∧
      reportsFrom (k + n) segs = (reportsFrom k segs).map (Diagnostic.later n) := by
  induction segs generalizing k with
  | nil => exact ⟨rfl, rfl⟩
  | cons s segs ih =>
    obtain ⟨t, f⟩ := s
    obtain ⟨htok, hrep⟩ := ih (k + Text.lineBreaks t)
    rw [Nat.add_right_comm] at htok hrep
    cases f with
    | token d => exact ⟨congrArg (_ :: ·) htok, hrep⟩
    | trivia => exact ⟨htok, hrep⟩
    | fault e =>
      refine ⟨htok, ?_⟩
      rw [reportsFrom, hrep, Nat.add_right_comm]
      rfl

/-- Every fault is reported in its words. -/
theorem exists_mem_reportsFrom {segs : List (Text × Finding)} {t : Text} {e : ScanError}
    (h : (t, .fault e) ∈ segs) (k : Nat) : ∃ d ∈ reportsFrom k segs, d.message = e.message := by
  induction segs generalizing k with
  | nil => cases h
  | cons s segs ih =>
    rcases List.mem_cons.1 h with rfl | h
    · exact ⟨_, List.mem_cons_self, rfl⟩
    · obtain ⟨d, hd, hmessage⟩ := ih h (k + Text.lineBreaks s.1)
      obtain ⟨u, f⟩ := s
      refine ⟨d, ?_, hmessage⟩
      cases f with
      | fault => exact List.mem_cons_of_mem _ hd
      | token | trivia => exact hd

/-! ## A line feed behind a text -/

/-- A line feed behind a text makes no difference to what stands in front of it. -/
theorem alike_append_lineFeed (rest b : Text) : Alike rest (rest ++ '\n' :: b) := by
  cases rest with
  | nil => exact ⟨.lineFeed, fun h => by cases h⟩
  | cons c rest =>
    refine ⟨.refl _, fun _ => ?_⟩
    cases rest with
    | nil => exact .lineFeed
    | cons d rest => exact .refl _

/-- A blank is a segment of its own. -/
theorem Segmented.blank {c : Char} {rest : Text} {segs : List (Text × Finding)}
    (hc : c ∈ [' ', '\t', '\r', '\n']) (h : Segmented rest segs) :
    Segmented (c :: rest) (([c], .trivia) :: segs) :=
  .cons (List.cons_ne_nil c []) (stands_blank hc rest) h

/-- **Segmentations are joined at a line feed**, if nothing is left open in front of it. -/
theorem Segmented.append_lineFeed {a b : Text} {segs segs' : List (Text × Finding)}
    (ha : Segmented a segs) (hopen : ∀ s ∈ segs, ¬ IsOpen s.2) (hb : Segmented b segs') :
    Segmented (a ++ '\n' :: b) (segs ++ (['\n'], .trivia) :: segs') := by
  induction ha with
  | nil => exact hb.blank (by simp)
  | @cons t rest f segs hne hstands _ ih =>
    obtain ⟨hf, hopen⟩ := List.forall_mem_cons.1 hopen
    rw [List.append_assoc, List.cons_append]
    exact .cons hne (hstands.congr hf (alike_append_lineFeed rest b)) (ih hopen)

/-- **A scan goes line by line**: where the first text leaves nothing open, the tokens and the
reports of two texts joined at a line feed are those of the first one, without its end marker,
and behind them those of the second one on as many further lines as there are line feeds in front
of it. -/
theorem scan_append_lineFeed {a : Text}
    (h : ∀ d ∈ (scan a).diagnostics, d.message ≠ ScanError.unterminatedString.message ∧
      d.message ≠ ScanError.unterminatedBlockComment.message) (b : Text) :
    (scan (a ++ '\n' :: b)).tokens =
        (scan a).tokens.dropLast ++
          (scan b).tokens.map (Token.later (1 + Text.lineBreaks a)) ∧
      (scan (a ++ '\n' :: b)).diagnostics =
        (scan a).diagnostics ++
          (scan b).diagnostics.map (Diagnostic.later (1 + Text.lineBreaks a)) := by
  obtain ⟨segs, ha⟩ := exists_segmented a
  obtain ⟨segs', hb⟩ := exists_segmented b
  have hopen : ∀ s ∈ segs, ¬ IsOpen s.2 := by
    rintro ⟨t, f⟩ hs hf
    have hreport : ∀ e, f = .fault e → ∃ d ∈ (scan a).diagnostics, d.message = e.message := by
      rintro e rfl
      rw [scan_of_segmented ha]
      exact exists_mem_reportsFrom hs 1
    rcases hf with hf | hf
    · obtain ⟨d, hd, hmessage⟩ := hreport _ hf
      exact (h d hd).1 hmessage
    · obtain ⟨d, hd, hmessage⟩ := hreport _ hf
      exact (h d hd).2 hmessage
  obtain ⟨htok, hrep⟩ := views_append segs ((['\n'], .trivia) :: segs') 1
  have hline : 1 + Text.lineBreaks (joined segs) + 1 = 1 + (1 + Text.lineBreaks a) := by
    rw [joined, ha.flatten, Nat.add_assoc, Nat.add_comm (Text.lineBreaks a)]
  obtain ⟨htok', hrep'⟩ := views_add segs' 1 (1 + Text.lineBreaks a)
  rw [← hline] at htok' hrep'
  have hmarker : Token.eof (1 + Text.lineBreaks (a ++ '\n' :: b)) =
      (Token.eof (1 + Text.lineBreaks b)).later (1 + Text.lineBreaks a) := by
    have hfeed : Text.lineBreaks ('\n' :: b) = Text.lineBreaks b + 1 := List.count_cons_self
    simp only [Token.later, Token.eof, Text.lineBreaks_append, hfeed, Token.mk.injEq, true_and]
    omega
  rw [scan_of_segmented (ha.append_lineFeed hopen hb), scan_of_segmented ha, scan_of_segmented hb]
  refine ⟨?_, ?_⟩
  · rw [htok, hmarker, List.dropLast_concat, List.map_append, ← htok', List.append_assoc]
    rfl
  · rw [hrep, ← hrep']
    rfl

/-- A slash and a star on two lines open no comment. -/
theorem scan_append_lineFeed_slash :
    let a := "\n8. @ /".toList
    let b := "* 9".toList
    (∀ d ∈ (scan a).diagnostics, d.message ≠ ScanError.unterminatedString.message ∧
        d.message ≠ ScanError.unterminatedBlockComment.message) ∧
      (scan (a ++ '\n' :: b)).tokens =
        (scan a).tokens.dropLast ++ (scan b).tokens.map (Token.later 2) ∧
      (scan (a ++ '\n' :: b)).diagnostics =
        (scan a).diagnostics ++ (scan b).diagnostics.map (Diagnostic.later 2) := by
  intro a b
  have h : ∀ d ∈ (scan a).diagnostics, d.message ≠ ScanError.unterminatedString.message ∧
      d.message ≠ ScanError.unterminatedBlockComment.message := by decide +kernel
  exact ⟨h, scan_append_lineFeed h b⟩

end Lexical

end Lox
