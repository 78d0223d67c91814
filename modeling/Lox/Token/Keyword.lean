import Lox.Text
/-!
# Keywords

The reserved words. A keyword is recognised by its whole spelling, in lower
case; every other word is an identifier.
-/


namespace Lox

/-- A reserved word. -/
inductive Keyword
  | andWord
  | classWord
  | elseWord
  | falseWord
  | funWord
  | forWord
  | ifWord
  | nilWord
  | orWord
  | printWord
  | returnWord
  | superWord
  | thisWord
  | trueWord
  | varWord
  | whileWord
deriving DecidableEq

namespace Keyword

/-- Every keyword. -/
def all : List Keyword :=
  [andWord, classWord, elseWord, falseWord, funWord, forWord, ifWord, nilWord, orWord, printWord,
    returnWord, superWord, thisWord, trueWord, varWord, whileWord]

/-- How a keyword is written in a source. -/
def spelling : Keyword → Text
  | andWord => "and".toList
  | classWord => "class".toList
  | elseWord => "else".toList
  | falseWord => "false".toList
  | funWord => "fun".toList
  | forWord => "for".toList
  | ifWord => "if".toList
  | nilWord => "nil".toList
  | orWord => "or".toList
  | printWord => "print".toList
  | returnWord => "return".toList
  | superWord => "super".toList
  | thisWord => "this".toList
  | trueWord => "true".toList
  | varWord => "var".toList
  | whileWord => "while".toList

/-- The name of a keyword in a token dump. -/
def name : Keyword → String
  | andWord => "And"
  | classWord => "Class"
  | elseWord => "Else"
  | falseWord => "False"
  | funWord => "Fun"
  | forWord => "For"
  | ifWord => "If"
  | nilWord => "Nil"
  | orWord => "Or"
  | printWord => "Print"
  | returnWord => "Return"
  | superWord => "Super"
  | thisWord => "This"
  | trueWord => "True"
  | varWord => "Var"
  | whileWord => "While"

/-- The keyword that `t` spells. -/
def ofSpelling? (t : Text) : Option Keyword := all.find? fun k => k.spelling = t

/-- Whether a statement or a declaration starts with this word. -/
def startsStatement : Keyword → Bool
  | classWord | funWord | varWord | forWord | ifWord | whileWord | printWord | returnWord => true
  | _ => false

/-- Looking a spelling up gives its keyword. -/
theorem ofSpelling?_spelling (k : Keyword) : ofSpelling? k.spelling = some k := by
  cases k <;> decide

theorem spelling_of_ofSpelling? {t : Text} {k : Keyword} (h : ofSpelling? t = some k) :
    k.spelling = t := by
  simpa using List.find?_some h

end Keyword

end Lox
