import Lox.Token
/-!
# Token streams

What a parser still has ahead of it: tokens up to the first end marker, and
the line to report when they run out. A list without an end marker ends on
the line of its last token, and an empty one on line 1.
-/


namespace Lox

/-- The tokens ahead, no end marker among them, and the line on which they end. -/
structure TokenStream where
  ahead : List Token
  endLine : Nat
deriving DecidableEq

namespace TokenStream

/-- The line on which a token list ends. -/
def endLineOf (ts : List Token) : Nat :=
  match ts.find? Token.isEof with
  | some marker => marker.line
  | none => (ts.getLast?.map Token.line).getD 1

/-- The stream of a token list. What stands behind the first end marker is never seen. -/
def ofTokens (ts : List Token) : TokenStream where
  ahead := ts.takeWhile fun t => !t.isEof
  endLine := endLineOf ts

/-- The next token, or the end marker. -/
def peek (s : TokenStream) : Token := s.ahead.head?.getD (.eof s.endLine)

end TokenStream

end Lox
