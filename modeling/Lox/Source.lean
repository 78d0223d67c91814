import Lox.Expr.Sequence
import Lox.Segment
/-!
# Parsing a source

A source is scanned and its tokens are parsed as one expression. Faults of
the scan do not keep the parser from running, so one run reports as much as
possible, but any report makes the whole fail.
-/


namespace Lox

/-- The reports of an attempt that failed; none of one that succeeded. -/
def Item.diagnostics (i : Item) : Diagnostics := (i.error?.map ParseError.diagnostic).toList

/-- The tree, if there is nothing to report, and else the reports. -/
def outcome {α : Type} (value : Option α) (reports : Diagnostics) : Except Diagnostics α :=
  match value, reports with
  | some v, [] => .ok v
  | _, _ => .error reports

/-- Parses a token list as one expression. Tokens behind it are left unread. -/
def parseTokens (ts : List Token) : Except Diagnostics Expr :=
  let item := (TokenStream.ofTokens ts).parse.1
  outcome item.expr? item.diagnostics

/-- Parses a token list as expressions ended by semicolons. -/
def parseSequence (ts : List Token) : Except Diagnostics (List Expr) :=
  let stream := TokenStream.ofTokens ts
  outcome (some stream.expressions) (stream.errors.map ParseError.diagnostic)

/-- **Parses a source as one expression.** The reports of the scan come first. -/
def parseSource (source : Text) : Except Diagnostics Expr :=
  let scanned := scan source
  let item := (TokenStream.ofTokens scanned.tokens).parse.1
  outcome item.expr? (scanned.diagnostics ++ item.diagnostics)

/-- Equality of two outcomes of parsing that compares numbers arithmetically. -/
def equalOutcomes : Except Diagnostics Expr → Except Diagnostics Expr → Bool
  | .ok a, .ok b => a.equal b
  | .error a, .error b => a == b
  | _, _ => false

end Lox
