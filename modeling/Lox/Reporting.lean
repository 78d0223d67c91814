import Lox.Source
/-!
# Reporting into a sink

Several runs can share one sink of diagnostics. Each adds its own reports
behind those already there, and gives its tokens or trees whether or not the
sink holds any.
-/


namespace Lox

/-- A computation that adds to a sink of diagnostics. -/
abbrev Reporting := StateM Diagnostics

namespace Reporting

/-- Adds one report. -/
def report (d : Diagnostic) : Reporting Unit := modify (· ++ [d])

/-- Adds reports in their order. -/
def extend (ds : Diagnostics) : Reporting Unit := modify (· ++ ds)

/-- Drops all reports. -/
def clear : Reporting Unit := set ([] : Diagnostics)

/-- Scans what lies ahead of `p`, segment by segment, and reports each fault where it is met. -/
def scanFrom (p : Position) : Reporting (List Token) :=
  match _h : p.ahead with
  | [] => return [.eof p.line]
  | c :: t => do
    let segment : Segment := ⟨p, (munch c t).finding, (munch c t).length⟩
    extend segment.diagnostic?.toList
    let rest ← scanFrom segment.stop
    return segment.token?.toList ++ rest
termination_by p.ahead.length
decreasing_by
  have := Munch.length_pos c t
  simp only [Segment.stop, Position.ahead_past, List.length_drop, _h, List.length_cons]
  omega

/-- Scans a source and reports its faults. -/
def scan (source : Text) : Reporting (List Token) := scanFrom (.start source)

/-- Parses one expression and reports the error, if there is one. -/
def parse (s : TokenStream) : Reporting (Option Expr × TokenStream) := do
  let (item, rest) := s.parse
  extend item.diagnostics
  return (item.expr?, rest)

/-- Parses the whole stream as a sequence and reports every error. -/
def parseSequence (s : TokenStream) : Reporting (List Expr × TokenStream) := do
  extend (s.errors.map ParseError.diagnostic)
  return (s.expressions, s.atEnd)

/-- Parsing one expression gives the tree, if there is one, and adds the error, if there is one. -/
theorem run_parse (s : TokenStream) (sink : Diagnostics) :
    (parse s).run sink = ((s.parse.1.expr?, s.parse.2), sink ++ s.parse.1.diagnostics) :=
  rfl

/-- Parsing a sequence gives its trees and adds its errors. -/
theorem run_parseSequence (s : TokenStream) (sink : Diagnostics) :
    (parseSequence s).run sink =
      ((s.expressions, s.atEnd), sink ++ s.errors.map ParseError.diagnostic) :=
  rfl

end Reporting

end Lox
