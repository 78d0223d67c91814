import Lox.Diagnostic
import Lox.Expr.Reading
import Lox.Token.Stream
/-!
# Parsing a token stream

`parse` reads one expression and leaves the stream where it stopped.
`items` reads a whole stream as expressions ended by semicolons: after an
item that fails, tokens are passed over up to what is probably the start of
the next one, so that each fault is reported once. The expressions and the
errors of a sequence are two views of its items.
-/


namespace Lox

/-- What was expected, in words. -/
def Expected.message : Expected → Text
  | expression => "Expect expression.".toList
  | rightParen => "Expect ')' after expression.".toList
  | semicolon => "Expect ';' after expression.".toList

/-- Something was expected at a token that does not fit. -/
structure ParseError where
  expected : Expected
  line : Nat
  location : Text
deriving DecidableEq

namespace ParseError

/-- The error at the token `t`. -/
def atToken (x : Expected) (t : Token) : ParseError := ⟨x, t.line, t.location⟩

/-- The report of the error. -/
def diagnostic (e : ParseError) : Diagnostic := ⟨e.line, e.location, e.expected.message⟩

end ParseError

/-- The tokens at which parsing goes on, once the token `passed` has been given up: behind the
next semicolon or before the next word that starts a statement. -/
def resume (passed : Token) : List Token → List Token
  | [] => []
  | t :: rest =>
    if passed.isSymbol .semicolon || t.startsStatement then t :: rest else resume t rest

theorem length_resume_le (passed : Token) (ts : List Token) :
    (resume passed ts).length ≤ ts.length := by
  induction ts generalizing passed with
  | nil => exact Nat.le_refl _
  | cons t rest ih =>
    rw [resume]
    split
    · exact Nat.le_refl _
    · exact Nat.le_succ_of_le (ih t)

/-- The tokens at which parsing goes on after an error at the first token of `ts`. At least that
token is given up. -/
def synchronize : List Token → List Token
  | [] => []
  | t :: rest => resume t rest

theorem length_synchronize_le (ts : List Token) : (synchronize ts).length ≤ ts.length - 1 := by
  cases ts with
  | nil => exact Nat.le_refl _
  | cons t rest => exact length_resume_le t rest

/-- One attempt at an expression: its tree, or what went wrong. -/
abbrev Item := Except ParseError Expr

namespace Item

/-- The tree of an attempt that succeeded. -/
def expr? : Item → Option Expr
  | .ok e => some e
  | .error _ => none

/-- The error of an attempt that failed. -/
def error? : Item → Option ParseError
  | .ok _ => none
  | .error e => some e

end Item

namespace TokenStream

/-- The stream from the tokens `rest` on. -/
def withAhead (s : TokenStream) (rest : List Token) : TokenStream := { s with ahead := rest }

/-- The outcome of a reading as an attempt, and where it left the stream. -/
def settle {n : Nat} (s : TokenStream) : Reading n → Item × TokenStream
  | .done e rest _ => (.ok e, s.withAhead rest)
  | .stuck x rest _ => (.error (.atToken x (s.withAhead rest).peek), s.withAhead rest)

/-- **Parses one expression.** After an error the stream is left at the token that does not
fit. -/
def parse (s : TokenStream) : Item × TokenStream := s.settle (readExpression s.ahead)

/-- **The items of a sequence**, in the order in which they stand. -/
def items (s : TokenStream) : List Item :=
  match _h : s.ahead with
  | [] => []
  | t :: ts =>
    match readTerminated (t :: ts) with
    | .done e rest _ => .ok e :: items (s.withAhead rest)
    | .stuck x rest _ =>
      .error (.atToken x (s.withAhead rest).peek) :: items (s.withAhead (synchronize rest))
termination_by s.ahead.length
decreasing_by
  · simp_all [TokenStream.withAhead]
  · have := length_synchronize_le rest
    simp_all [TokenStream.withAhead]
    omega

/-- Where no token is left there is no item. -/
theorem items_of_nil {s : TokenStream} (h : s.ahead = []) : s.items = [] := by
  rw [items]
  split
  · rfl
  · simp_all

/-- An item that succeeds is followed by the items behind its semicolon. -/
theorem items_of_done {s : TokenStream} {t : Token} {ts rest : List Token} {e : Expr}
    {lt : rest.length < (t :: ts).length} (h : s.ahead = t :: ts)
    (read : readTerminated (t :: ts) = .done e rest lt) :
    s.items = .ok e :: (s.withAhead rest).items := by
  rw [items]
  split
  · simp_all
  · rename_i h'
    obtain ⟨rfl, rfl⟩ := List.cons.inj (h.symm.trans h')
    simp [read]

/-- An item that fails is followed by the items from where parsing goes on. -/
theorem items_of_stuck {s : TokenStream} {t : Token} {ts rest : List Token} {x : Expected}
    {le : rest.length ≤ (t :: ts).length} (h : s.ahead = t :: ts)
    (read : readTerminated (t :: ts) = .stuck x rest le) :
    s.items = .error (.atToken x (s.withAhead rest).peek) ::
      (s.withAhead (synchronize rest)).items := by
  rw [items]
  split
  · simp_all
  · rename_i h'
    obtain ⟨rfl, rfl⟩ := List.cons.inj (h.symm.trans h')
    simp [read]

/-- The trees of a sequence. -/
def expressions (s : TokenStream) : List Expr := s.items.filterMap Item.expr?

/-- The errors of a sequence. -/
def errors (s : TokenStream) : List ParseError := s.items.filterMap Item.error?

/-- The end of the stream. -/
def atEnd (s : TokenStream) : TokenStream := s.withAhead []

end TokenStream

end Lox
