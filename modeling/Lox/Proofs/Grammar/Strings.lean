import Lox.Proofs.Grammar.Parsing
import Lox.Source
/-!
# Strings and parsing

A parser does not look into strings: with another text in place of the value
and the lexeme of each string token it does what it did before, and the tree
has the other text in its strings. Only the place that a report names can
tell the difference, where it quotes the lexeme of a string.
-/


namespace Lox

open Grammar Reading

/-- The data with `f` applied to the value of a string. -/
def TokenData.mapString (f : Text → Text) : TokenData → TokenData
  | str v => str (f v)
  | d => d

/-- A string token with `f` applied to its value and to its lexeme. Any other token is left as it
is. -/
def Token.mapString (f : Text → Text) (t : Token) : Token :=
  match t.data with
  | .str v => ⟨.str (f v), f t.lexeme, t.line⟩
  | _ => t

/-- The value with `f` applied to a string. -/
def Literal.mapString (f : Text → Text) : Literal → Literal
  | str v => str (f v)
  | v => v

namespace Expr

/-- The tree with `f` applied to each string in it. -/
def mapStrings (f : Text → Text) : Expr → Expr
  | literal v => literal (v.mapString f)
  | group e => group (e.mapStrings f)
  | unary o e => unary o (e.mapStrings f)
  | binary l o r => binary (l.mapStrings f) o (r.mapStrings f)

end Expr

/-- The task with `f` applied to each string that has been read. -/
def Task.mapStrings (f : Text → Text) : Task → Task
  | level l => level l
  | chain l left => chain l (left.mapStrings f)
  | primary => primary

/-- The result with `f` applied to each string, in the tree and in the tokens. -/
def Reading.Result.mapStrings (f : Text → Text) : Result → Result
  | .ok (e, rest) => .ok (e.mapStrings f, rest.map (Token.mapString f))
  | .error (x, rest) => .error (x, rest.map (Token.mapString f))

/-- The stream with `f` applied to each string. -/
def TokenStream.mapStrings (f : Text → Text) (s : TokenStream) : TokenStream :=
  { s with ahead := s.ahead.map (Token.mapString f) }

/-- The report without the place that it names on its line. -/
def Diagnostic.unlocated (d : Diagnostic) : Diagnostic := { d with location := [] }

section

variable {f : Text → Text} {t : Token}

/-- Data is a string or it is none. -/
theorem TokenData.exists_eq_str_or (d : TokenData) : (∃ v, d = .str v) ∨ ∀ v, d ≠ .str v :=
  (Classical.em _).imp_right not_exists.1

theorem TokenData.mapString_eq_self {d : TokenData} (h : ∀ v, d ≠ .str v) : d.mapString f = d := by
  cases d with
  | str v => exact absurd rfl (h v)
  | _ => rfl

theorem TokenData.name_mapString (d : TokenData) : (d.mapString f).name = d.name := by
  cases d <;> rfl

namespace Token

theorem mapString_eq_self (h : ∀ v, t.data ≠ .str v) : t.mapString f = t := by
  unfold mapString
  split
  · rename_i v hv
    exact absurd hv (h v)
  · rfl

@[simp] theorem data_mapString : (t.mapString f).data = t.data.mapString f := by
  obtain ⟨d, x, k⟩ := t
  cases d <;> rfl

@[simp] theorem line_mapString : (t.mapString f).line = t.line := by
  obtain ⟨d, x, k⟩ := t
  cases d <;> rfl

/-- What is written of a token is changed by `f` too, if `f` leaves the lexemes of the other tokens
alone. -/
theorem lexeme_mapString (h : (∀ v, t.data ≠ .str v) → f t.lexeme = t.lexeme) :
    (t.mapString f).lexeme = f t.lexeme := by
  obtain ⟨d, x, k⟩ := t
  cases d with
  | str v => rfl
  | _ => exact (h nofun).symm

@[simp] theorem isSymbol_mapString (s : Symbol) : (t.mapString f).isSymbol s = t.isSymbol s := by
  obtain ⟨d, x, k⟩ := t
  cases d <;> rfl

@[simp] theorem isEof_mapString : (t.mapString f).isEof = t.isEof := by
  obtain ⟨d, x, k⟩ := t
  cases d <;> rfl

theorem mapString_of_isSymbol {s : Symbol} (h : t.isSymbol s = true) : t.mapString f = t :=
  mapString_eq_self fun v hv => by
    rw [isSymbol_iff, hv] at h
    cases h

@[simp] theorem isUnaryOperator_mapString :
    (t.mapString f).isUnaryOperator = t.isUnaryOperator := by
  rw [isUnaryOperator, isUnaryOperator, isSymbol_mapString, isSymbol_mapString]

theorem mapString_of_isUnaryOperator (h : t.isUnaryOperator = true) : t.mapString f = t := by
  rcases Bool.or_eq_true_iff.1 h with h | h
  · exact mapString_of_isSymbol h
  · exact mapString_of_isSymbol h

@[simp] theorem isOperatorOf_mapString (l : Level) :
    (t.mapString f).isOperatorOf l = t.isOperatorOf l := by
  have hsame : (t.mapString f).isSymbol = t.isSymbol := funext isSymbol_mapString
  rw [isOperatorOf, isOperatorOf, hsame]

theorem mapString_of_isOperatorOf {l : Level} (h : t.isOperatorOf l = true) :
    t.mapString f = t := by
  obtain ⟨s, -, hs⟩ := List.any_eq_true.1 h
  exact mapString_of_isSymbol hs

theorem literal?_mapString :
    (t.mapString f).data.literal? = t.data.literal?.map (Literal.mapString f) := by
  obtain ⟨d, x, k⟩ := t
  cases d with
  | keyword k => cases k <;> rfl
  | _ => rfl

end Token

/-! ## The descent -/

/-- **The descent does not look into strings**: each of its rules applies as before. -/
theorem Descent.mapStrings {task : Task} {ts : List Token} {r : Result} (h : Descent task ts r)
    (f : Text → Text) :
    Descent (task.mapStrings f) (ts.map (Token.mapString f)) (r.mapStrings f) := by
  induction h with
  | missing => exact .missing
  | negated ht _ ih =>
    rw [List.map_cons, Token.mapString_of_isUnaryOperator ht]
    exact .negated ht ih
  | negatedStuck ht _ ih => exact .negatedStuck (by rwa [Token.isUnaryOperator_mapString]) ih
  | bare ht _ ih => exact .bare (by rwa [Token.isUnaryOperator_mapString]) ih
  | operand hl _ _ ih ihc => exact .operand hl ih ihc
  | operandStuck hl _ ih => exact .operandStuck hl ih
  | join ht _ _ ih ihc =>
    rw [List.map_cons, Token.mapString_of_isOperatorOf ht]
    exact .join ht ih ihc
  | joinStuck ht _ ih => exact .joinStuck (by rwa [Token.isOperatorOf_mapString]) ih
  | chainEnd => exact .chainEnd
  | chainStop ht => exact .chainStop (by rwa [Token.isOperatorOf_mapString])
  | literal hv =>
    refine .literal ?_
    rw [Token.literal?_mapString, hv]
    rfl
  | group ht hc _ ih =>
    exact .group (by rwa [Token.isSymbol_mapString]) (by rwa [Token.isSymbol_mapString]) ih
  | groupStuck ht _ ih => exact .groupStuck (by rwa [Token.isSymbol_mapString]) ih
  | unclosed ht hc _ ih =>
    refine .unclosed (by rwa [Token.isSymbol_mapString]) (fun c hmem => ?_) ih
    rw [List.head?_map] at hmem
    obtain ⟨d, hd, rfl⟩ := Option.map_eq_some_iff.1 hmem
    rw [Token.isSymbol_mapString]
    exact hc d hd
  | unfit hv ht =>
    refine .unfit ?_ (by rwa [Token.isSymbol_mapString])
    rw [Token.literal?_mapString, hv]
    rfl
  | noPrimary => exact .noPrimary

/-! ## The parser -/

namespace TokenStream

/-- The token in front of a stream is on the same line. -/
theorem line_peek_mapStrings (s : TokenStream) : (s.mapStrings f).peek.line = s.peek.line := by
  rw [peek, peek, mapStrings, List.head?_map]
  cases s.ahead.head? with
  | none => rfl
  | some t => exact Token.line_mapString

/-- The stream of tokens with other strings ends where that of the tokens does. -/
theorem ofTokens_map_mapString (f : Text → Text) (ts : List Token) :
    ofTokens (ts.map (Token.mapString f)) = (ofTokens ts).mapStrings f := by
  have heof : Token.isEof ∘ Token.mapString f = Token.isEof := funext fun _ => Token.isEof_mapString
  have hnot : (fun t => !t.isEof) ∘ Token.mapString f = fun t => !t.isEof :=
    funext fun _ => congrArg _ Token.isEof_mapString
  have hline : endLineOf (ts.map (Token.mapString f)) = endLineOf ts := by
    rw [endLineOf, endLineOf, List.find?_map, heof, List.getLast?_map]
    cases ts.find? Token.isEof with
    | some marker => exact Token.line_mapString
    | none =>
      cases ts.getLast? with
      | none => rfl
      | some t => exact Token.line_mapString
  rw [ofTokens, ofTokens, hline, List.takeWhile_map, hnot]
  rfl

theorem withAhead_mapStrings (s : TokenStream) (rest : List Token) :
    (s.mapStrings f).withAhead (rest.map (Token.mapString f)) =
      (s.withAhead rest).mapStrings f := rfl

/-- **A parser does not look into strings.** It gives the tree with the other strings in it, or it
reports the same on the same line. -/
theorem parse_mapStrings (f : Text → Text) (s : TokenStream) :
    (s.mapStrings f).parse.1.expr? = s.parse.1.expr?.map (Expr.mapStrings f) ∧
      (s.mapStrings f).parse.1.diagnostics.map Diagnostic.unlocated =
        s.parse.1.diagnostics.map Diagnostic.unlocated := by
  obtain ⟨item, s', hparse⟩ : ∃ item s', s.parse = (item, s') := ⟨_, _, rfl⟩
  cases item with
  | ok e =>
    obtain ⟨rest, -, hd⟩ := parse_eq_ok_iff.1 hparse
    have hd' : Descent (.level .comma) (s.mapStrings f).ahead
        (.ok (e.mapStrings f, rest.map (Token.mapString f))) := hd.mapStrings f
    rw [parse_eq_ok_iff.2 ⟨_, rfl, hd'⟩, hparse]
    exact ⟨rfl, rfl⟩
  | error error =>
    obtain ⟨x, rest, rfl, -, hd⟩ := parse_eq_error_iff.1 hparse
    have hd' : Descent (.level .comma) (s.mapStrings f).ahead
        (.error (x, rest.map (Token.mapString f))) := hd.mapStrings f
    rw [parse_eq_error_iff.2 ⟨x, _, rfl, rfl, hd'⟩, hparse, withAhead_mapStrings]
    refine ⟨rfl, ?_⟩
    simp [Item.diagnostics, Item.error?, ParseError.atToken, ParseError.diagnostic,
      Diagnostic.unlocated, line_peek_mapStrings]

end TokenStream

end

end Lox
