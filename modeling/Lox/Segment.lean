import Lox.Diagnostic
import Lox.Lexeme
import Lox.Text.Position
/-!
# Segments of a source

A source is cut from left to right into segments, each a token, trivia or a
fault. The tokens and the diagnostics of a scan are two views of this cut: a
token is on the line where its segment starts, and a fault is reported on the
line where its segment stops.
-/


namespace Lox

/-- A stretch of source: where it starts, what it is and how many characters it has. -/
structure Segment where
  start : Position
  finding : Finding
  length : Nat
deriving DecidableEq

namespace Segment

/-- The text of the segment. -/
def lexeme (s : Segment) : Text := s.start.ahead.take s.length

/-- The place behind the segment. -/
def stop (s : Segment) : Position := s.start.past s.length

/-- The token that the segment holds. -/
def token? (s : Segment) : Option Token :=
  match s.finding with
  | .token data => some ⟨data, s.lexeme, s.start.line⟩
  | _ => none

/-- What there is to report about the segment. -/
def diagnostic? (s : Segment) : Option Diagnostic :=
  match s.finding with
  | .fault error => some ⟨s.stop.line, [], error.message⟩
  | _ => none

/-- **The cut** of all the text ahead of `p`. -/
def cut (p : Position) : List Segment :=
  match _h : p.ahead with
  | [] => []
  | c :: t => ⟨p, (munch c t).finding, (munch c t).length⟩ :: cut (p.past (munch c t).length)
termination_by p.ahead.length
decreasing_by
  have := Munch.length_pos c t
  simp only [Position.ahead_past, List.length_drop, _h, List.length_cons]
  omega

/-- At the end of the source there is nothing to cut. -/
theorem cut_of_nil {p : Position} (h : p.ahead = []) : cut p = [] := by
  rw [cut]
  split
  · rfl
  · simp_all

/-- The first segment is what `munch` takes, and the cut goes on behind it. -/
theorem cut_of_cons {p : Position} {c : Char} {t : Text} (h : p.ahead = c :: t) :
    cut p = ⟨p, (munch c t).finding, (munch c t).length⟩ :: cut (p.past (munch c t).length) := by
  rw [cut]
  split
  · simp_all
  · rename_i h'
    obtain ⟨rfl, rfl⟩ := List.cons.inj (h.symm.trans h')
    rfl

end Segment

/-- What scanning a source gives: its tokens, the last of them the end marker, and the reports of
its faults. -/
structure Scan where
  tokens : List Token
  diagnostics : Diagnostics
deriving DecidableEq

/-- Scans a whole source. Faults are reported and passed over. -/
def scan (source : Text) : Scan :=
  let segments := Segment.cut (.start source)
  { tokens := segments.filterMap Segment.token? ++ [.eof (1 + Text.lineBreaks source)]
    diagnostics := segments.filterMap Segment.diagnostic? }

end Lox
