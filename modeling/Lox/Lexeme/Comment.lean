import Lox.Text
/-!
# Comments

A line comment runs up to the next line feed, which is not part of it. A
block comment nests: an opener inside it needs a closer of its own. Inside a
block comment the text is read two characters at a time where they open or
close a comment and one at a time elsewhere, so of two marks that share a
character the first one counts.
-/


namespace Lox

namespace Comment

/-- The length of a line comment whose two slashes are followed by `t`. -/
def lineLength (t : Text) : Nat := 2 + (t.takeWhile (· != '\n')).length

/-- How many characters of a text it takes to close a block comment that has been opened and
`inner` further ones inside it; none if the text ends first. -/
def closingLength? : (inner : Nat) → Text → Option Nat
  | _, [] => none
  | inner, '/' :: '*' :: t => (closingLength? (inner + 1) t).map (· + 2)
  | 0, '*' :: '/' :: _ => some 2
  | inner + 1, '*' :: '/' :: t => (closingLength? inner t).map (· + 2)
  | inner, _ :: t => (closingLength? inner t).map (· + 1)

/-- The length of a block comment whose opener is followed by `t`, if it is closed. -/
def blockLength? (t : Text) : Option Nat := (closingLength? 0 t).map (· + 2)

end Comment

end Lox
