import Lox.Proofs.Grammar.Recognition
/-!
# Where the descent stops

A descent passes some tokens and stops in front of the others, done or stuck.
What it comes to depends on the tokens it passes and on the next one, and on
nothing behind that. When it is stuck, the tokens it has passed begin an
expression: with other tokens behind them they would have been read to the
end. So the token where it is stuck is the first one that does not fit.
-/


namespace Lox

namespace Reading

/-- The tokens that are not passed. -/
def Result.rest : Result → List Token
  | .ok (_, rest) => rest
  | .error (_, rest) => rest

/-- The same outcome in front of other tokens. -/
def Result.withRest (r : Result) (rest : List Token) : Result :=
  match r with
  | .ok (e, _) => .ok (e, rest)
  | .error (x, _) => .error (x, rest)

end Reading

open Reading (Result)

/-! ## What the outcome depends on -/

theorem head?_append_congr {c rest rest' : List Token} (h : rest.head? = rest'.head?) :
    (c ++ rest).head? = (c ++ rest').head? := by
  rw [List.head?_append, List.head?_append, h]

theorem head?_append_of_ne_nil {rest : List Token} (h : rest ≠ []) (b : List Token) :
    (rest ++ b).head? = rest.head? := by
  rw [List.head?_append, List.head?_eq_some_head h, Option.some_or]

/-- `Passes task c r`: the task passes `c` and stops as in `r`, whatever stands behind the next
token. -/
def Passes (task : Task) (c : List Token) (r : Result) : Prop :=
  ∀ rest, rest.head? = r.rest.head? → Descent task (c ++ rest) (r.withRest rest)

namespace Passes

/-- A task that stops at the first token passes none. -/
theorem nil {task : Task} {r : Result}
    (hend : r.rest = [] → Descent task [] (r.withRest []))
    (htoken : ∀ t ts rest, r.rest = t :: ts → Descent task (t :: rest) (r.withRest (t :: rest))) :
    Passes task [] r := by
  intro rest hrest
  cases hr : r.rest with
  | nil =>
    rw [hr, List.head?_nil, List.head?_eq_none_iff] at hrest
    rw [hrest]
    exact hend hr
  | cons t ts =>
    rw [hr, List.head?_cons, List.head?_eq_some_iff] at hrest
    obtain ⟨rest', rfl⟩ := hrest
    exact htoken t ts rest' hr

end Passes

namespace Descent

/-- **A descent looks no further than the token in front of which it stops.** It passes some tokens,
and comes to the same behind them whenever the next token is the same. -/
theorem exists_passes {task : Task} {ts : List Token} {r : Result} (h : Descent task ts r) :
    ∃ c, ts = c ++ r.rest ∧ Passes task c r := by
  induction h with
  | missing => exact ⟨[], rfl, .nil (fun _ => .missing) nofun⟩
  | @negated t _ _ _ ht _ ih =>
    obtain ⟨c, rfl, hc⟩ := ih
    exact ⟨t :: c, rfl, fun rest hrest => .negated ht (hc rest hrest)⟩
  | @negatedStuck t _ _ ht _ ih =>
    obtain ⟨c, rfl, hc⟩ := ih
    exact ⟨t :: c, rfl, fun rest hrest => .negatedStuck ht (hc rest hrest)⟩
  | @bare t ts r ht _ ih =>
    obtain ⟨c, hts, hc⟩ := ih
    refine ⟨c, hts, fun rest hrest => ?_⟩
    -- the token that is no operator is still in front, whether it is passed or not
    have hhead : (c ++ rest).head? = some t := by
      rw [head?_append_congr hrest, ← hts, List.head?_cons]
    obtain ⟨u, hu⟩ := List.head?_eq_some_iff.1 hhead
    have hread := hc rest hrest
    rw [hu] at hread ⊢
    exact .bare ht hread
  | @operand l _ _ left _ hl _ _ ih ihc =>
    obtain ⟨c, rfl, hc⟩ := ih
    obtain ⟨d, hd, hchain⟩ := ihc
    refine ⟨c ++ d, by rw [List.append_assoc, ← hd]; rfl, fun rest hrest => ?_⟩
    have hread := hc (d ++ rest) ((head?_append_congr hrest).trans (by rw [← hd]; rfl))
    rw [List.append_assoc]
    exact .operand hl hread (hchain rest hrest)
  | operandStuck hl _ ih =>
    obtain ⟨c, rfl, hc⟩ := ih
    exact ⟨c, rfl, fun rest hrest => .operandStuck hl (hc rest hrest)⟩
  | @join l left right t _ _ _ ht _ _ ih ihc =>
    obtain ⟨c, rfl, hc⟩ := ih
    obtain ⟨d, hd, hchain⟩ := ihc
    refine ⟨t :: c ++ d, by rw [List.append_assoc, ← hd]; rfl, fun rest hrest => ?_⟩
    have hread := hc (d ++ rest) ((head?_append_congr hrest).trans (by rw [← hd]; rfl))
    rw [List.append_assoc]
    exact .join ht hread (hchain rest hrest)
  | @joinStuck _ _ t _ _ ht _ ih =>
    obtain ⟨c, rfl, hc⟩ := ih
    exact ⟨t :: c, rfl, fun rest hrest => .joinStuck ht (hc rest hrest)⟩
  | chainEnd => exact ⟨[], rfl, .nil (fun _ => .chainEnd) nofun⟩
  | chainStop ht =>
    refine ⟨[], rfl, .nil nofun ?_⟩
    rintro t ts rest ⟨⟩
    exact .chainStop ht
  | @literal t _ _ hv => exact ⟨[t], rfl, fun rest _ => .literal hv⟩
  | @group t closing _ _ _ ht hclosing _ ih =>
    obtain ⟨c, rfl, hc⟩ := ih
    refine ⟨t :: c ++ [closing], by rw [List.append_assoc]; rfl, fun rest _ => ?_⟩
    rw [List.append_assoc]
    exact .group ht hclosing (hc (closing :: rest) rfl)
  | @groupStuck t _ _ ht _ ih =>
    obtain ⟨c, rfl, hc⟩ := ih
    exact ⟨t :: c, rfl, fun rest hrest => .groupStuck ht (hc rest hrest)⟩
  | @unclosed t _ _ _ ht hnot _ ih =>
    obtain ⟨c, rfl, hc⟩ := ih
    refine ⟨t :: c, rfl, fun rest hrest => .unclosed ht ?_ (hc rest hrest)⟩
    rw [hrest]
    exact hnot
  | unfit hv ht =>
    refine ⟨[], rfl, .nil nofun ?_⟩
    rintro t ts rest ⟨⟩
    exact .unfit hv ht
  | noPrimary => exact ⟨[], rfl, .nil (fun _ => .noPrimary) nofun⟩

/-- What is in front of the tokens left is what has been passed. -/
theorem passes {task : Task} {c ts : List Token} {r : Result} (h : Descent task ts r)
    (hts : ts = c ++ r.rest) : Passes task c r := by
  obtain ⟨c', hts', hpasses⟩ := h.exists_passes
  cases List.append_cancel_right (hts.symm.trans hts')
  exact hpasses

end Descent

/-! ## What a stuck descent has passed -/

namespace Grammar

/-- Whether an operand ends with the last token of `c`: that token is a literal or closes a
grouping. -/
def EndsOperand (c : List Token) : Prop :=
  ∃ t ∈ c.getLast?, (∃ v, LiteralRule t.data v) ∨ t.data = .symbol .rightParen

theorem not_endsOperand_nil : ¬ EndsOperand [] := by
  simp [EndsOperand]

/-- Only the last token counts. -/
theorem endsOperand_append {c d : List Token} (hd : d ≠ []) :
    EndsOperand (c ++ d) ↔ EndsOperand d := by
  rw [EndsOperand, EndsOperand, List.getLast?_append, List.getLast?_eq_some_getLast hd,
    Option.some_or]

theorem endsOperand_cons {t : Token} {d : List Token} (hd : d ≠ []) :
    EndsOperand (t :: d) ↔ EndsOperand d :=
  endsOperand_append (c := [t]) hd

/-- No operand ends with an operator or an opening parenthesis. -/
theorem not_endsOperand_symbol {t : Token} {s : Symbol} (ht : t.data = .symbol s)
    (hs : s ≠ .rightParen) : ¬ EndsOperand [t] := by
  rintro ⟨t', ht', ⟨v, hv⟩ | hclose⟩
  · cases Option.mem_some_iff.1 ht'
    exact hv.ne_symbol s ht
  · cases Option.mem_some_iff.1 ht'
    cases ht.symm.trans hclose
    exact hs rfl

namespace Derives

theorem ne_nil {n : Nonterminal} {c : List Token} {e : Expr} (h : Derives n c e) : c ≠ [] := by
  induction h with
  | unit _ _ ih => exact ih
  | _ => simp

/-- An operand ends where an expression does. -/
theorem endsOperand {n : Nonterminal} {c : List Token} {e : Expr} (h : Derives n c e) :
    EndsOperand c := by
  induction h with
  | unit _ _ ih => exact ih
  | binary _ _ _ hr _ ihr =>
    rw [endsOperand_append (List.cons_ne_nil _ _), endsOperand_cons hr.ne_nil]
    exact ihr
  | unary _ _ hder ih =>
    rw [endsOperand_cons hder.ne_nil]
    exact ih
  | literal hv => exact ⟨_, rfl, .inl ⟨_, hv⟩⟩
  | group _ hc =>
    rw [endsOperand_append (List.cons_ne_nil _ _)]
    exact ⟨_, rfl, .inr hc⟩

/-- A primary expression is an expression of every nonterminal. -/
theorem of_primary {c : List Token} {e : Expr} (h : Derives .primary c e) (n : Nonterminal) :
    Derives n c e := by
  have hunary : Derives .unary c e := .unit .unary h
  have hfactor : Derives .factor c e := .unit .factor hunary
  have hterm : Derives .term c e := .unit .term hfactor
  have hcomparison : Derives .comparison c e := .unit .comparison hterm
  have hequality : Derives .equality c e := .unit .equality hcomparison
  cases n
  case comma => exact .unit .comma hequality
  all_goals assumption

end Derives

/-- A token that is an expression. -/
def someOperand : Token := ⟨.keyword .nilWord, Keyword.nilWord.spelling, 1⟩

/-- A token that closes a grouping. -/
def closingParen : Token := ⟨.symbol .rightParen, Symbol.rightParen.spelling, 1⟩

theorem derives_someOperand (n : Nonterminal) : Derives n [someOperand] (.literal .nil) :=
  Derives.of_primary (.literal .nilWord) n

/-- `Begins n c`: with more tokens behind it, `c` is derived by `n`. -/
def Begins (n : Nonterminal) (c : List Token) : Prop := ∃ w e, Derives n (c ++ w) e

/-- Where an operand is missing, any operand helps. -/
theorem begins_nil (n : Nonterminal) : Begins n [] := ⟨[someOperand], _, derives_someOperand n⟩

/-- `Begun task c`: the tokens `c` are the beginning of what the task asks for. -/
def Begun (task : Task) (c : List Token) : Prop :=
  match task with
  | .level l => Begins l.nonterminal c
  | .chain l left => ∀ c₀, Derives l.nonterminal c₀ left → Begins l.nonterminal (c₀ ++ c)
  | .primary => Begins .primary c

/-- Whether the last token passed agrees with what is expected next: a closing parenthesis behind
an operand, and else an operand. -/
def Agrees (x : Expected) (c : List Token) : Prop :=
  x = .rightParen ∧ EndsOperand c ∨ x = .expression ∧ ¬ EndsOperand c

theorem Agrees.append {x : Expected} {c d : List Token} (h : Agrees x d) (hd : d ≠ []) :
    Agrees x (c ++ d) := by
  unfold Agrees at h ⊢
  rwa [endsOperand_append hd]

theorem agrees_nil : Agrees .expression [] := .inr ⟨rfl, not_endsOperand_nil⟩

/-- Behind an operator or an opening parenthesis it is as in front of it. -/
theorem Agrees.cons {x : Expected} {t : Token} {s : Symbol} {c : List Token} (h : Agrees x c)
    (ht : t.data = .symbol s) (hs : s ≠ .rightParen) : Agrees x (t :: c) := by
  by_cases hc : c = []
  · subst hc
    rcases h with ⟨-, hend⟩ | ⟨hx, -⟩
    · exact absurd hend not_endsOperand_nil
    · exact .inr ⟨hx, not_endsOperand_symbol ht hs⟩
  · exact Agrees.append (c := [t]) h hc

/-- **What a task that is stuck has passed**: the beginning of what it asks for, and the last token
passed tells what is expected. A chain is stuck behind an operator, so it has passed something. -/
structure Stuck (task : Task) (c : List Token) (x : Expected) : Prop where
  begun : Begun task c
  agrees : Agrees x c
  chain : ∀ l left, task = .chain l left → c ≠ []

/-- A binary operator is no closing parenthesis. -/
theorem ne_rightParen_of_mem_operators {l : Level} {s : Symbol} (h : s ∈ l.operators) :
    s ≠ .rightParen := by
  rintro rfl
  cases l <;> simp [Level.operators] at h

/-- **Every descent that is stuck has passed the beginning of what it asks for.** -/
theorem stuck_of_descent {task : Task} {ts rest : List Token} {x : Expected}
    (h : Descent task ts (.error (x, rest))) : ∃ c, ts = c ++ rest ∧ Stuck task c x := by
  generalize hr : (Except.error (x, rest) : Result) = r at h
  induction h generalizing x rest with
  | missing =>
    cases hr
    exact ⟨[], rfl, begins_nil _, agrees_nil, nofun⟩
  | @negatedStuck t _ _ ht _ ih =>
    obtain ⟨c, rfl, ⟨w, e, hder⟩, hagrees, -⟩ := ih hr
    obtain ⟨s, hs, hd⟩ := Token.isUnaryOperator_iff.1 ht
    refine ⟨t :: c, rfl, ⟨w, _, .unary hs hd hder⟩, hagrees.cons hd ?_, nofun⟩
    rintro rfl
    cases hs
  | bare _ _ ih =>
    obtain ⟨c, hts, ⟨w, e, hder⟩, hagrees, -⟩ := ih hr
    exact ⟨c, hts, ⟨w, e, .unit .unary hder⟩, hagrees, nofun⟩
  | @operand l ts rest' left r hl hread _ _ ihc =>
    -- the operand has been read, so it is what the chain needs in front of it
    obtain ⟨c, rfl, hder, -⟩ := sound_of_descent hread
    obtain ⟨d, rfl, hbegun, hagrees, hne⟩ := ihc hr
    refine ⟨c ++ d, (List.append_assoc ..).symm, ?_, hagrees.append (hne l left rfl), nofun⟩
    exact hbegun c (.unit (Level.unitRule_operand hl) hder)
  | @operandStuck l _ _ hl _ ih =>
    obtain ⟨c, rfl, ⟨w, e, hder⟩, hagrees, -⟩ := ih hr
    exact ⟨c, rfl, ⟨w, e, .unit (Level.unitRule_operand hl) hder⟩, hagrees, nofun⟩
  | @join l left right t ts rest' r ht hread _ _ ihc =>
    obtain ⟨c, rfl, hder, -⟩ := sound_of_descent hread
    obtain ⟨d, rfl, hbegun, hagrees, hne⟩ := ihc hr
    obtain ⟨s, hs, hd⟩ := Token.isOperatorOf_iff.1 ht
    refine ⟨t :: c ++ d, by simp, fun c₀ hc₀ => ?_, hagrees.append (hne _ _ rfl), nofun⟩
    have hjoin : Derives l.nonterminal (c₀ ++ t :: c) (.binary left t right) :=
      .binary (Level.mem_operators.1 hs) hd hc₀ hder
    have hbegins := hbegun _ hjoin
    rwa [List.append_assoc] at hbegins
  | @joinStuck l left t ts f ht _ ih =>
    obtain ⟨c, rfl, ⟨w, e, hder⟩, hagrees, -⟩ := ih hr
    obtain ⟨s, hs, hd⟩ := Token.isOperatorOf_iff.1 ht
    refine ⟨t :: c, rfl, fun c₀ hc₀ => ⟨w, .binary left t e, ?_⟩,
      hagrees.cons hd (ne_rightParen_of_mem_operators hs), fun _ _ _ => List.cons_ne_nil _ _⟩
    rw [List.append_assoc]
    exact .binary (Level.mem_operators.1 hs) hd hc₀ hder
  | @groupStuck t _ _ ht _ ih =>
    obtain ⟨c, rfl, ⟨w, e, hder⟩, hagrees, -⟩ := ih hr
    have hd := Token.isSymbol_iff.1 ht
    refine ⟨t :: c, rfl, ⟨w ++ [closingParen], .group e, ?_⟩, hagrees.cons hd nofun, nofun⟩
    have hgroup : Derives .primary (t :: (c ++ w) ++ [closingParen]) (.group e) :=
      .group hd rfl hder
    rwa [List.cons_append, List.append_assoc] at hgroup
  | @unclosed t ts rest' e ht _ hread _ =>
    cases hr
    obtain ⟨c, rfl, hder, -⟩ := sound_of_descent hread
    have hend : EndsOperand (t :: c) := (endsOperand_cons hder.ne_nil).2 hder.endsOperand
    refine ⟨t :: c, rfl, ⟨[closingParen], .group e, ?_⟩, .inl ⟨rfl, hend⟩, nofun⟩
    exact .group (Token.isSymbol_iff.1 ht) rfl hder
  | unfit =>
    cases hr
    exact ⟨[], rfl, begins_nil _, agrees_nil, nofun⟩
  | noPrimary =>
    cases hr
    exact ⟨[], rfl, begins_nil _, agrees_nil, nofun⟩
  | _ => cases hr

end Grammar

end Lox
