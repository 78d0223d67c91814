import Lox.Proofs.Lexical.Lines
import Lox.Proofs.Lexical.Joining
import Mathlib.Data.List.Forall2
/-!
# Characters that start nothing

A character that starts nothing ends what stands in front of it as a space
does, and starts as little. So a source in which each such character that is
reported is replaced by a space is scanned as the same tokens on the same
lines, and what else there was to report is still reported.
-/


namespace Lox

/-- The text of a segment, with a space in place of an unexpected character. -/
def Segment.cleaned (s : Segment) : Text :=
  match s.finding with
  | .fault (.unexpectedCharacter _) => [' ']
  | _ => s.lexeme

/-- A source with a space in place of each character that its scan reports as unexpected. -/
def cleaned (source : Text) : Text := (Segment.cut (.start source)).flatMap Segment.cleaned

/-- The reports of an outcome; none if it is a success. -/
def reportsOf {α : Type} : Except Diagnostics α → Diagnostics
  | .ok _ => []
  | .error ds => ds

namespace Lexical

/-- A segment with a space in place of an unexpected character. -/
def cleanedView : Text × Finding → Text × Finding
  | (_, .fault (.unexpectedCharacter _)) => ([' '], .trivia)
  | s => s

theorem cleaned_eq_joined (segs : List Segment) :
    segs.flatMap Segment.cleaned = joined ((segs.map Segment.view).map cleanedView) := by
  induction segs with
  | nil => rfl
  | cons s segs ih =>
    obtain ⟨p, f, n⟩ := s
    rw [List.flatMap_cons, ih]
    rcases f with _ | _ | (_ | _ | _) <;> rfl

/-! ## The segments of the cleaned text -/

/-- What stands in one place of a text and of the cleaned one. -/
def Cleans (c d : Char) : Prop := c = d ∨ IsStray c ∧ d = ' '

theorem forall₂_cleans_refl (t : Text) : List.Forall₂ Cleans t t :=
  List.forall₂_same.2 fun _ _ => .inl rfl

theorem alikeAt_of_cleans {t u : Text} (h : List.Forall₂ Cleans t u) :
    AlikeAt t.head? u.head? := by
  cases h with
  | nil => exact .refl _
  | cons hcd _ =>
    rcases hcd with rfl | ⟨hstray, rfl⟩
    · exact .refl _
    · exact .space hstray

/-- The cleaned text makes no difference to what stands in front of it. -/
theorem alike_of_cleans {t u : Text} (h : List.Forall₂ Cleans t u) : Alike t u := by
  refine ⟨alikeAt_of_cleans h, fun _ => ?_⟩
  cases h with
  | nil => exact .refl _
  | cons _ htail => exact alikeAt_of_cleans htail

/-- What stands in front of a text stands in front of the cleaned text too. -/
theorem Stands.of_cleans {t rest rest' : Text} {f : Finding} (h : Stands (t ++ rest) t f)
    (hrest : List.Forall₂ Cleans rest rest') : Stands (t ++ rest') t f := by
  by_cases hopen : IsOpen f
  · -- what is never closed takes all that is left
    obtain rfl := h.eq_nil_of_isOpen hopen
    rwa [List.forall₂_nil_left_iff.1 hrest]
  · exact h.congr hopen (alike_of_cleans hrest)

theorem cleanedView_eq_self {f : Finding} (hf : ∀ c, f ≠ .fault (.unexpectedCharacter c))
    (t : Text) : cleanedView (t, f) = (t, f) := by
  unfold cleanedView
  split
  · exact absurd (Prod.mk.inj ‹_›).2 (hf _)
  · rfl

/-- **Cleaning a text changes no other segment of it.** -/
theorem Segmented.cleaned {t : Text} {segs : List (Text × Finding)} (h : Segmented t segs) :
    Segmented (joined (segs.map cleanedView)) (segs.map cleanedView) ∧
      List.Forall₂ Cleans t (joined (segs.map cleanedView)) := by
  induction h with
  | nil => exact ⟨.nil, .nil⟩
  | @cons t rest f segs hne hstands _ ih =>
    obtain ⟨hsegs, hcleans⟩ := ih
    by_cases hf : ∃ c, f = .fault (.unexpectedCharacter c)
    · obtain ⟨c, rfl⟩ := hf
      obtain ⟨rfl, r, -, hstray⟩ := stands_unexpected_iff.1 hstands
      exact ⟨hsegs.blank (by simp), .cons (.inr ⟨hstray, rfl⟩) hcleans⟩
    · have hother : ∀ c, f ≠ .fault (.unexpectedCharacter c) := fun c hc => hf ⟨c, hc⟩
      rw [List.map_cons, cleanedView_eq_self hother]
      exact ⟨.cons hne (hstands.of_cleans hcleans) hsegs,
        List.rel_append (forall₂_cleans_refl t) hcleans⟩

/-- Cleaning a text leaves its lines: no line feed is a character that starts nothing. -/
theorem lineBreaks_of_cleans {t u : Text} (h : List.Forall₂ Cleans t u) :
    Text.lineBreaks u = Text.lineBreaks t := by
  induction h with
  | nil => rfl
  | @cons c d t u hcd _ ih =>
    rcases hcd with rfl | ⟨hstray, rfl⟩
    · rw [← List.singleton_append, Text.lineBreaks_append, ih, ← Text.lineBreaks_append,
        List.singleton_append]
    · have hne : c ≠ '\n' := by
        rintro rfl
        exact hstray [] _ (.blank (by simp))
      rw [Text.lineBreaks, Text.lineBreaks, List.count_cons_of_ne (by decide),
        List.count_cons_of_ne hne]
      exact ih

/-! ## The scan of the cleaned text -/

/-- Whether a report is about an unexpected character. -/
def isUnexpected (d : Diagnostic) : Bool := d.message == "Unexpected character.".toList

/-- **The cleaned segments give the same tokens and the other reports.** -/
theorem views_cleaned {t : Text} {segs : List (Text × Finding)} (h : Segmented t segs) (k : Nat) :
    tokensFrom k (segs.map cleanedView) = tokensFrom k segs ∧
      reportsFrom k (segs.map cleanedView) =
        (reportsFrom k segs).filter fun d => !isUnexpected d := by
  induction h generalizing k with
  | nil => exact ⟨rfl, rfl⟩
  | @cons t rest f segs _ hstands _ ih =>
    obtain ⟨htok, hrep⟩ := ih (k + Text.lineBreaks t)
    cases f with
    | token d => exact ⟨congrArg (_ :: ·) htok, hrep⟩
    | trivia => exact ⟨htok, hrep⟩
    | fault e =>
      cases e with
      | unexpectedCharacter c =>
        -- neither the character nor the space breaks a line
        obtain ⟨-, hbreaks⟩ := hstands.eq_singleton
        have hspace : Text.lineBreaks [' '] = Text.lineBreaks t := hbreaks.symm
        show tokensFrom (k + Text.lineBreaks [' ']) (segs.map cleanedView) =
            tokensFrom (k + Text.lineBreaks t) segs ∧
          reportsFrom (k + Text.lineBreaks [' ']) (segs.map cleanedView) =
            (reportsFrom (k + Text.lineBreaks t) segs).filter fun d => !isUnexpected d
        rw [hspace]
        exact ⟨htok, hrep⟩
      | unterminatedString | unterminatedBlockComment =>
        exact ⟨htok, congrArg (_ :: ·) hrep⟩

end Lexical

open Lexical

/-- What parsing tokens has to report is the error that there is, if there is one. -/
theorem reportsOf_parseTokens (ts : List Token) :
    reportsOf (parseTokens ts) = (TokenStream.ofTokens ts).parse.1.diagnostics := by
  rw [parseTokens]
  cases (TokenStream.ofTokens ts).parse.1 <;> rfl

theorem length_diagnostics_le (i : Item) : i.diagnostics.length ≤ 1 := by
  cases i <;> simp [Item.diagnostics, Item.error?]

/-- **Unexpected characters leave nothing but their reports.** With a space in place of each of them
a source has the same tokens, and of its reports all the others. So what is reported about a source
that does not parse is what its scan reports, and behind that at most the one error there is in the
tokens of the cleaned source. -/
theorem scan_cleaned (source : Text) :
    (scan (cleaned source)).tokens = (scan source).tokens ∧
      (scan (cleaned source)).diagnostics =
        (scan source).diagnostics.filter (fun d => d.message != "Unexpected character.".toList) ∧
      ∀ ds, parseSource source = .error ds →
        ds = (scan source).diagnostics ++
            reportsOf (parseTokens (scan (cleaned source)).tokens) ∧
          (reportsOf (parseTokens (scan (cleaned source)).tokens)).length ≤ 1 := by
  obtain ⟨segs, hsegs⟩ := exists_segmented source
  have hview := segmented_unique hsegs (Segment.segmented_cut (.start source)).1
  have hcleaned : cleaned source = joined (segs.map cleanedView) := by
    rw [cleaned, cleaned_eq_joined, hview]
  obtain ⟨hscan, hcleans⟩ := hsegs.cleaned
  obtain ⟨htok, hrep⟩ := views_cleaned hsegs 1
  have htokens : (scan (cleaned source)).tokens = (scan source).tokens := by
    rw [hcleaned, scan_of_segmented hscan, scan_of_segmented hsegs, htok,
      lineBreaks_of_cleans hcleans]
  refine ⟨htokens, ?_, fun ds hds => ?_⟩
  · rw [hcleaned, scan_of_segmented hscan, scan_of_segmented hsegs, hrep]
    rfl
  · rw [htokens, reportsOf_parseTokens]
    exact ⟨eq_of_parseSource_eq_error hds, length_diagnostics_le _⟩

/-- An unexpected character stands in place of an operand, and the same one stands in a string. -/
theorem scan_cleaned_operand :
    ∃ ds, parseSource "8.5 + \u00e9 * \"\u00e9\"".toList = .error ds ∧
      ds = (scan "8.5 + \u00e9 * \"\u00e9\"".toList).diagnostics ++
        reportsOf (parseTokens (scan (cleaned "8.5 + \u00e9 * \"\u00e9\"".toList)).tokens) := by
  have hnone : (parseSource "8.5 + \u00e9 * \"\u00e9\"".toList).toOption.isNone = true := by
    decide +kernel
  cases hp : parseSource "8.5 + \u00e9 * \"\u00e9\"".toList with
  | ok e =>
    rw [hp] at hnone
    cases hnone
  | error ds => exact ⟨ds, rfl, ((scan_cleaned _).2.2 ds hp).1⟩

end Lox
