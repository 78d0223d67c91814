import Lox.Proofs.Grammar.Descent
import Lox.Proofs.Grammar.Rules
/-!
# The reader recognises the grammar

Soundness: what the reader reads is derived by the nonterminal of its level,
and it stops where no operator of that level or a tighter one follows.
Completeness: a derived string is read to its end wherever that condition
holds behind it. The two together make the tree of a derivation unique.
-/


namespace Lox

namespace Grammar

/-- `Stops l rest`: no operator of the level `l`, or of a tighter one, stands in front of
`rest`. -/
def Stops (l : Level) (rest : List Token) : Prop :=
  ∀ t ∈ rest.head?, ∀ m : Level, m.rank ≤ l.rank → ¬ t.isOperatorOf m = true

theorem stops_nil {l : Level} : Stops l [] := by
  simp [Stops]

/-- Where only unary expressions are read, nothing has to stop. -/
theorem stops_unary {rest : List Token} : Stops .unary rest := by
  intro t _ m hm
  cases m <;> simp_all [Level.rank, Token.isOperatorOf, Level.operators]

/-- A level stops where its operands stop and none of its own operators follows. -/
theorem Stops.of_operand {l : Level} {rest : List Token} (h : Stops l.operand rest)
    (hl : ∀ t ∈ rest.head?, ¬ t.isOperatorOf l = true) : Stops l rest := by
  intro t ht m hm
  by_cases hml : m = l
  · exact hml ▸ hl t ht
  · refine h t ht m ?_
    cases l <;> cases m <;> simp_all [Level.rank, Level.operand]

/-- What stops a level stops its operands. -/
theorem Stops.operand {l : Level} {rest : List Token} (h : Stops l rest) :
    Stops l.operand rest := by
  intro t ht m hm
  refine h t ht m (Nat.le_trans hm ?_)
  cases l <;> decide

/-- An operator stops the operands of its own level. -/
theorem stops_operator {l : Level} {t : Token} {rest : List Token} (hl : l ≠ .unary)
    (ht : t.isOperatorOf l = true) : Stops l.operand (t :: rest) := by
  intro t' ht' m hm hop
  cases Option.mem_some_iff.1 ht'
  obtain ⟨s, hs, hd⟩ := Token.isOperatorOf_iff.1 ht
  obtain ⟨s', hs', hd'⟩ := Token.isOperatorOf_iff.1 hop
  cases hd.symm.trans hd'
  have hlm := Level.eq_of_mem_operators hs hs'
  have hlt := Level.rank_operand_lt hl
  rw [← hlm] at hm
  omega

/-- A symbol that is no binary operator stops every level. -/
theorem stops_symbol {l : Level} {t : Token} {s : Symbol} {rest : List Token}
    (ht : t.data = .symbol s) (hs : ∀ n m, ¬ BinaryRule n s m) : Stops l (t :: rest) := by
  intro t' ht' m _ hop
  cases Option.mem_some_iff.1 ht'
  obtain ⟨s', hs', hd⟩ := Token.isOperatorOf_iff.1 hop
  cases ht.symm.trans hd
  exact hs _ _ (Level.mem_operators.1 hs')

/-- The loosest level stops where no binary operator follows. -/
theorem stops_comma_iff {rest : List Token} :
    Stops .comma rest ↔ ∀ t ∈ rest.head?, ¬ IsBinaryOperator t := by
  simp only [Token.isBinaryOperator_iff, not_exists]
  exact ⟨fun h t ht m => h t ht m (Level.rank_le m), fun h t ht m _ => h t ht m⟩

/-! ## Soundness -/

/-- What holds when a task on `ts` is done with the tree `e` and the tokens `rest` behind it. -/
def Sound (task : Task) (ts : List Token) (e : Expr) (rest : List Token) : Prop :=
  match task with
  | .level l => ∃ c, ts = c ++ rest ∧ Derives l.nonterminal c e ∧ Stops l rest
  | .chain l left =>
    ∀ c₀, Derives l.nonterminal c₀ left → l ≠ .unary → Stops l.operand ts →
      ∃ c, ts = c ++ rest ∧ Derives l.nonterminal (c₀ ++ c) e ∧ Stops l rest
  | .primary => ∃ c, ts = c ++ rest ∧ Derives .primary c e

/-- **Every step of the descent is sound.** -/
theorem sound_of_descent {task : Task} {ts rest : List Token} {e : Expr}
    (h : Descent task ts (.ok (e, rest))) : Sound task ts e rest := by
  generalize hr : (Except.ok (e, rest) : Reading.Result) = r at h
  induction h generalizing e rest with
  | negated ht _ ih =>
    cases hr
    obtain ⟨c, rfl, hc, hstop⟩ := ih rfl
    obtain ⟨s, hs, hd⟩ := Token.isUnaryOperator_iff.1 ht
    exact ⟨_ :: c, rfl, .unary hs hd hc, stops_unary⟩
  | bare _ _ ih =>
    obtain ⟨c, hts, hc⟩ := ih hr
    exact ⟨c, hts, .unit .unary hc, stops_unary⟩
  | operand hl _ _ ih ihc =>
    obtain ⟨c, rfl, hc, hstop⟩ := ih rfl
    obtain ⟨c', rfl, hc', hstop'⟩ := ihc hr c (.unit (Level.unitRule_operand hl) hc) hl hstop
    exact ⟨c ++ c', (List.append_assoc ..).symm, hc', hstop'⟩
  | @join l left right t _ _ _ ht _ _ ih ihc =>
    intro c₀ hc₀ hl _
    -- `c₀` has been read so far; the operator and its operand extend it to the right
    obtain ⟨c, rfl, hc, hstop⟩ := ih rfl
    obtain ⟨s, hs, hd⟩ := Token.isOperatorOf_iff.1 ht
    have hjoin : Derives l.nonterminal (c₀ ++ t :: c) (.binary left t right) :=
      .binary (Level.mem_operators.1 hs) hd hc₀ hc
    obtain ⟨c', rfl, hc', hstop'⟩ := ihc hr _ hjoin hl hstop
    exact ⟨t :: c ++ c', by simp, by simpa using hc', hstop'⟩
  | chainEnd =>
    cases hr
    intro c₀ hc₀ _ _
    exact ⟨[], rfl, by simpa using hc₀, stops_nil⟩
  | chainStop ht =>
    cases hr
    intro c₀ hc₀ _ hstop
    refine ⟨[], rfl, by simpa using hc₀, hstop.of_operand ?_⟩
    rintro t' ht'
    cases Option.mem_some_iff.1 ht'
    exact ht
  | literal hv =>
    cases hr
    exact ⟨[_], rfl, .literal (TokenData.literal?_eq_some_iff.1 hv)⟩
  | @group t closing _ _ _ ht hc _ ih =>
    cases hr
    obtain ⟨c, rfl, hd, -⟩ := ih rfl
    refine ⟨t :: c ++ [closing], by simp, .group ?_ ?_ hd⟩
    · exact Token.isSymbol_iff.1 ht
    · exact Token.isSymbol_iff.1 hc
  | _ => cases hr

/-! ## Completeness -/

/-- A chain ends where its level stops. -/
theorem descent_chain_of_stops {l : Level} {e : Expr} {rest : List Token} (h : Stops l rest) :
    Descent (.chain l e) rest (.ok (e, rest)) := by
  cases rest with
  | nil => exact .chainEnd
  | cons t rest => exact .chainStop (h t rfl l (Nat.le_refl _))

/-- What a derivation of `e` from `c` by `n` promises about the reader. A level that has operators
of its own is promised to reach its chain with `e` on the left, and not to be done: an operator
that follows `c` may belong to the level itself, as it does behind a left operand. -/
structure Complete (n : Nonterminal) (c : List Token) (e : Expr) : Prop where
  chain : ∀ (l : Level) (rest : List Token) (r : Reading.Result), l ≠ .unary →
    n = l.nonterminal → Stops l.operand rest → Descent (.chain l e) rest r →
    Descent (.level l) (c ++ rest) r
  unary : n = .unary → ∀ rest, Descent (.level .unary) (c ++ rest) (.ok (e, rest))
  primary : n = .primary → ∃ t c', c = t :: c' ∧ ¬ t.isUnaryOperator = true ∧
    ∀ rest, Descent .primary (t :: c' ++ rest) (.ok (e, rest))

namespace Complete

variable {c : List Token} {e : Expr}

/-- The promise of a level that has operators. -/
theorem of_chain {l : Level} (hl : l ≠ .unary)
    (h : ∀ rest r, Stops l.operand rest → Descent (.chain l e) rest r →
      Descent (.level l) (c ++ rest) r) : Complete l.nonterminal c e := by
  refine ⟨fun m rest r _ hm hstop hchain => ?_, fun hn => ?_, fun hn => ?_⟩
  · cases Level.nonterminal_injective hm
    exact h rest r hstop hchain
  · exact absurd (Level.nonterminal_injective (m := .unary) hn) hl
  · cases l <;> cases hn

/-- The promise of the unary expressions. -/
theorem of_unary (h : ∀ rest, Descent (.level .unary) (c ++ rest) (.ok (e, rest))) :
    Complete .unary c e := by
  refine ⟨fun m rest r hm hn => ?_, fun _ => h, fun hn => ?_⟩
  · exact absurd (Level.nonterminal_injective (l := .unary) hn).symm hm
  · cases hn

/-- The promise of the primary expressions. -/
theorem of_primary {t : Token} (ht : ¬ t.isUnaryOperator = true)
    (h : ∀ rest, Descent .primary (t :: c ++ rest) (.ok (e, rest))) :
    Complete .primary (t :: c) e := by
  refine ⟨fun m rest r _ hn => ?_, fun hn => ?_, fun _ => ⟨t, c, rfl, ht, h⟩⟩
  · cases m <;> cases hn
  · cases hn

/-- A derived string is read to its end where its level stops. -/
theorem level {l : Level} {rest : List Token} (h : Complete l.nonterminal c e)
    (hstop : Stops l rest) : Descent (.level l) (c ++ rest) (.ok (e, rest)) := by
  by_cases hl : l = .unary
  · subst hl
    exact h.unary rfl rest
  · exact h.chain l rest _ hl rfl hstop.operand (descent_chain_of_stops hstop)

end Complete

/-- **Every derivation is followed by the reader.** -/
theorem complete_of_derives {n : Nonterminal} {c : List Token} {e : Expr} (h : Derives n c e) :
    Complete n c e := by
  induction h with
  | @unit n m ts e hrule _ ih =>
    rcases Level.exists_of_unitRule hrule with ⟨l, hl, rfl, rfl⟩ | ⟨rfl, rfl⟩
    · refine .of_chain hl fun rest r hstop hchain => ?_
      exact .operand hl (ih.level hstop) hchain
    · obtain ⟨t, c, rfl, ht, h⟩ := ih.primary rfl
      exact .of_unary fun rest => .bare ht (h rest)
  | @binary n m s ls rs t l r hrule hs _ _ ihl ihr =>
    obtain ⟨lev, hlev, rfl, rfl, hmem⟩ := Level.exists_of_binaryRule hrule
    have hop : t.isOperatorOf lev = true := Token.isOperatorOf_iff.2 ⟨s, hmem, hs⟩
    refine .of_chain hlev fun rest res hstop hchain => ?_
    rw [List.append_assoc]
    -- the left operand is of this level too, so it is followed only up to the chain
    refine ihl.chain lev _ res hlev rfl (stops_operator hlev hop) ?_
    exact .join hop (ihr.level hstop) hchain
  | unary hrule hs _ ih =>
    refine .of_unary fun rest => .negated ?_ (ih.unary rfl rest)
    exact Token.isUnaryOperator_iff.2 ⟨_, hrule, hs⟩
  | literal hv =>
    refine .of_primary (fun ht => ?_) fun rest => .literal (TokenData.literal?_eq_some_iff.2 hv)
    obtain ⟨s, -, hs⟩ := Token.isUnaryOperator_iff.1 ht
    exact hv.ne_symbol s hs
  | @group opening closing ts e ho hc _ ih =>
    refine .of_primary (fun ht => ?_) fun rest => ?_
    · obtain ⟨s, hrule, hs⟩ := Token.isUnaryOperator_iff.1 ht
      cases ho.symm.trans hs
      cases hrule
    · have hstop : Stops .comma (closing :: rest) := stops_symbol hc (fun n m => nofun)
      have hread := ih.level (l := .comma) hstop
      have hgroup := Descent.group (Token.isSymbol_iff.2 ho) (Token.isSymbol_iff.2 hc) hread
      simpa using hgroup

/-! ## Recognition -/

/-- **The reader recognises the grammar.** It is done with `e` in front of `rest` if and only if
the tokens before `rest` derive `e` and no binary operator follows. -/
theorem descent_comma_iff {ts rest : List Token} {e : Expr} :
    Descent (.level .comma) ts (.ok (e, rest)) ↔
      ∃ c, ts = c ++ rest ∧ Derives .comma c e ∧ ∀ t ∈ rest.head?, ¬ IsBinaryOperator t := by
  constructor
  · intro h
    obtain ⟨c, hts, hc, hstop⟩ := sound_of_descent h
    exact ⟨c, hts, hc, stops_comma_iff.1 hstop⟩
  · rintro ⟨c, rfl, hc, hstop⟩
    exact (complete_of_derives hc).level (l := .comma) (stops_comma_iff.2 hstop)

/-- **The grammar is unambiguous**: the reader, followed along either derivation, returns its
tree. -/
theorem derives_unique {n : Nonterminal} {c : List Token} {e e' : Expr} (h : Derives n c e)
    (h' : Derives n c e') : e = e' := by
  have hc := complete_of_derives h
  have hc' := complete_of_derives h'
  rcases Level.exists_nonterminal_eq n with rfl | ⟨l, rfl⟩
  · obtain ⟨t, ts, rfl, -, hd⟩ := hc.primary rfl
    obtain ⟨t', ts', hts, -, hd'⟩ := hc'.primary rfl
    have hr := (hd []).run_eq
    rw [hts, (hd' []).run_eq] at hr
    cases hr
    rfl
  · have hr := (hc.level stops_nil).run_eq
    rw [(hc'.level stops_nil).run_eq] at hr
    cases hr
    rfl

end Grammar

end Lox
