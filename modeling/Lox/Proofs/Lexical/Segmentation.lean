import Lox.Proofs.Lexical.Longest
import Lox.Segment
/-!
# The segmentation of a source

A scan cuts its source into the segments of the lexical grammar, one after
another until nothing is left, and gives the tokens and the reports of those
segments. A source has one segmentation, so nothing of a scan is left open.
-/


namespace Lox

namespace Lexical

/-- **The segmentations of a text**: each segment stands in front of what is left, is not empty, and
the next one stands behind it. -/
inductive Segmented : Text → List (Text × Finding) → Prop
  | nil : Segmented [] []
  | cons {t rest : Text} {f : Finding} {segs : List (Text × Finding)} :
      t ≠ [] → Stands (t ++ rest) t f → Segmented rest segs →
      Segmented (t ++ rest) ((t, f) :: segs)

/-- The tokens of segments of which the first one starts on `line`: a lexeme gives one, on the line
where it starts. -/
def tokensFrom (line : Nat) : List (Text × Finding) → List Token
  | [] => []
  | (t, .token d) :: segs => ⟨d, t, line⟩ :: tokensFrom (line + Text.lineBreaks t) segs
  | (t, _) :: segs => tokensFrom (line + Text.lineBreaks t) segs

/-- The reports about segments of which the first one starts on `line`: a fault gives one, on the
line where it stops and without a location. -/
def reportsFrom (line : Nat) : List (Text × Finding) → Diagnostics
  | [] => []
  | (t, .fault e) :: segs =>
    ⟨line + Text.lineBreaks t, [], e.message⟩ :: reportsFrom (line + Text.lineBreaks t) segs
  | (t, _) :: segs => reportsFrom (line + Text.lineBreaks t) segs

/-- **Nothing is lost**: the segments make up the text. -/
theorem Segmented.flatten {t : Text} {segs : List (Text × Finding)} (h : Segmented t segs) :
    (segs.map Prod.fst).flatten = t := by
  induction h with
  | nil => rfl
  | cons _ _ _ ih => rw [List.map_cons, List.flatten_cons, ih]

theorem Segmented.ne_nil {t : Text} {segs : List (Text × Finding)} (h : Segmented t segs) :
    ∀ s ∈ segs, s.1 ≠ [] := by
  induction h with
  | nil => simp
  | cons hne _ _ ih =>
    intro s hs
    rcases List.mem_cons.1 hs with rfl | hs
    · exact hne
    · exact ih s hs

/-- **A text has one segmentation.** -/
theorem segmented_unique {t : Text} {segs segs' : List (Text × Finding)} (h : Segmented t segs)
    (h' : Segmented t segs') : segs = segs' := by
  induction h generalizing segs' with
  | nil =>
    generalize ht : ([] : Text) = t at h'
    cases h' with
    | nil => rfl
    | cons hne => exact absurd (List.append_eq_nil_iff.1 ht.symm).1 hne
  | @cons t rest f segs hne hstands _ ih =>
    generalize hu : t ++ rest = u at h' hstands
    cases h' with
    | nil => exact absurd (List.append_eq_nil_iff.1 hu).1 hne
    | @cons t' rest' f' segs' _ hstands' hrest' =>
      obtain ⟨rfl, rfl⟩ := stands_unique hstands hstands'
      cases List.append_cancel_left hu
      rw [ih hrest']

end Lexical

namespace Segment

open Lexical

/-- The text of a segment and what it is. -/
def view (s : Segment) : Text × Finding := (s.lexeme, s.finding)

/-- The first segment of a cut, and the cut behind it. -/
theorem exists_cut_eq_cons {p : Position} (h : p.ahead ≠ []) :
    ∃ s, s.start = p ∧ cut p = s :: cut s.stop ∧ s.lexeme ≠ [] ∧
      p.ahead = s.lexeme ++ s.stop.ahead ∧ Stands p.ahead s.lexeme s.finding := by
  obtain ⟨c, t, hct⟩ := List.exists_cons_of_ne_nil h
  refine ⟨⟨p, (munch c t).finding, (munch c t).length⟩, rfl, cut_of_cons hct, ?_, ?_, ?_⟩
  · have hpos := Munch.length_pos c t
    rw [lexeme, hct]
    intro hnil
    rw [List.take_eq_nil_iff] at hnil
    rcases hnil with hz | hnil
    · simp only at hz
      omega
    · cases hnil
  · exact (List.take_append_drop _ _).symm
  · show Stands p.ahead (p.ahead.take (munch c t).length) (munch c t).finding
    rw [hct]
    exact takesStanding c t

/-- **Induction along a cut.** What holds at the end of the text, and of a segment in front of a cut
if it holds of that, holds of every cut. -/
theorem cut_induction {motive : Position → List Segment → Prop}
    (nil : ∀ p, p.ahead = [] → motive p [])
    (cons : ∀ s, s.lexeme ≠ [] → s.start.ahead = s.lexeme ++ s.stop.ahead →
      Stands s.start.ahead s.lexeme s.finding → motive s.stop (cut s.stop) →
      motive s.start (s :: cut s.stop)) (p : Position) : motive p (cut p) := by
  -- by the length of what lies ahead, since no segment is empty
  induction hn : p.ahead.length using Nat.strongRecOn generalizing p with
  | ind n ih =>
    by_cases h : p.ahead = []
    · rw [cut_of_nil h]
      exact nil p h
    · obtain ⟨s, rfl, hcut, hne, hahead, hstands⟩ := exists_cut_eq_cons h
      have hlt : s.stop.ahead.length < n := by
        have hlen := congrArg List.length hahead
        have hpos := List.length_pos_iff.2 hne
        rw [List.length_append] at hlen
        omega
      rw [hcut]
      exact cons s hne hahead hstands (ih _ hlt s.stop rfl)

theorem tokensFrom_view_cons (s : Segment) (segs : List (Text × Finding)) :
    tokensFrom s.start.line (s.view :: segs) =
      s.token?.toList ++ tokensFrom s.stop.line segs := by
  obtain ⟨p, f, n⟩ := s
  cases f <;> rfl

theorem reportsFrom_view_cons (s : Segment) (segs : List (Text × Finding)) :
    reportsFrom s.start.line (s.view :: segs) =
      s.diagnostic?.toList ++ reportsFrom s.stop.line segs := by
  obtain ⟨p, f, n⟩ := s
  cases f <;> rfl

theorem filterMap_cons_eq_append {α β : Type} (f : α → Option β) (a : α) (as : List α) :
    (a :: as).filterMap f = (f a).toList ++ as.filterMap f := by
  cases h : f a <;> simp [h]

/-- **A cut is the segmentation of what lies ahead**, and its tokens and reports are those of the
segmentation. -/
theorem segmented_cut (p : Position) :
    Segmented p.ahead ((cut p).map view) ∧
      (cut p).filterMap token? = tokensFrom p.line ((cut p).map view) ∧
      (cut p).filterMap diagnostic? = reportsFrom p.line ((cut p).map view) := by
  induction p using cut_induction with
  | nil p h =>
    rw [h]
    exact ⟨.nil, rfl, rfl⟩
  | cons s hne hahead hstands ih =>
    obtain ⟨hseg, htok, hrep⟩ := ih
    rw [List.map_cons, tokensFrom_view_cons, reportsFrom_view_cons, ← htok, ← hrep]
    refine ⟨?_, ?_, ?_⟩
    · rw [hahead] at hstands ⊢
      exact .cons hne hstands hseg
    · exact filterMap_cons_eq_append token? s (cut s.stop)
    · exact filterMap_cons_eq_append diagnostic? s (cut s.stop)

end Segment

namespace Lexical

/-- Every text has a segmentation. -/
theorem exists_segmented (source : Text) : ∃ segs, Segmented source segs :=
  ⟨_, (Segment.segmented_cut (.start source)).1⟩

/-- What a scan gives is read off any segmentation of its source. -/
theorem scan_of_segmented {source : Text} {segs : List (Text × Finding)}
    (h : Segmented source segs) :
    scan source = ⟨tokensFrom 1 segs ++ [Token.eof (1 + Text.lineBreaks source)],
      reportsFrom 1 segs⟩ := by
  obtain ⟨hseg, htok, hrep⟩ := Segment.segmented_cut (.start source)
  obtain rfl := segmented_unique h hseg
  rw [scan, htok, hrep]
  rfl

/-- **A scan is the segmentation of its source, and loses nothing.** The segments are not empty and
make up the source; each of them stands in front of what is left, and no other segmentation does so;
the tokens are those of the lexemes, with the end marker behind them, and the reports those of the
faults. -/
theorem scan_eq_segmentation (source : Text) :
    let segs := (Segment.cut (.start source)).map Segment.view
    (segs.map Prod.fst).flatten = source ∧ (∀ s ∈ segs, s.1 ≠ []) ∧
      Segmented source segs ∧ (∀ segs', Segmented source segs' → segs' = segs) ∧
      (scan source).tokens =
        tokensFrom 1 segs ++ [Token.eof (1 + Text.lineBreaks source)] ∧
      (scan source).diagnostics = reportsFrom 1 segs := by
  intro segs
  obtain ⟨hseg, htok, hrep⟩ := Segment.segmented_cut (.start source)
  refine ⟨hseg.flatten, hseg.ne_nil, hseg, fun segs' h => segmented_unique h hseg, ?_, hrep⟩
  rw [scan, htok]
  rfl

end Lexical

end Lox
