import Lox.Postfix
import Lox.Source
/-!
# What is emitted for a source

A source is written back in one of four forms: the tree as nested lists, its
flat text, the postfix order of that, or a dump of the tokens, which does not
parse and so fails on faults of the scan alone.
-/


namespace Lox

/-- The form in which a source is written back. -/
inductive Emit
  | lisp
  | flat
  | polish
  | tokens
deriving DecidableEq

/-- One line of a token dump: kind, lexeme and decoded value. -/
def Token.describe (t : Token) : Text :=
  t.data.name.toList ++ ' ' :: t.lexeme ++ ' ' ::
    match t.data with
    | .number n => n.text
    | .str s => s
    | _ => "null".toList

/-- The dump of a source's tokens. -/
def dumpTokens (source : Text) : Except Diagnostics Text :=
  let scanned := scan source
  outcome (some (Text.joinLines (scanned.tokens.map Token.describe))) scanned.diagnostics

namespace Emit

/-- Every form. -/
def all : List Emit := [lisp, flat, polish, tokens]

/-- The name by which a form is asked for. -/
def name : Emit → Text
  | lisp => "lisp".toList
  | flat => "infix".toList
  | polish => "polish".toList
  | tokens => "tokens".toList

/-- The form with the name `t`. -/
def ofName? (t : Text) : Option Emit := all.find? fun e => e.name = t

/-- **Writes a source back**, or gives the reports about it. -/
def render (emit : Emit) (source : Text) : Except Diagnostics Text :=
  match emit with
  | lisp => (parseSource source).map Expr.lispText
  | flat => (parseSource source).map Expr.infixText
  | polish => (parseSource source).map Expr.polishText
  | tokens => dumpTokens source

end Emit

end Lox
