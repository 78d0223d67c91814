import Lox.Proofs.Grammar.Recognition
import Lox.Source
/-!
# What a sequence accepts

A sequence succeeds exactly on blocks of one expression and one semicolon
each. No expression contains a semicolon, so the blocks are where the
semicolons are. A sequence that does not succeed has something to report.
-/


namespace Lox

namespace Grammar

/-- No rule mentions a semicolon, so no expression contains one. -/
theorem IsTerminal.not_semicolon {t : Token} (h : IsTerminal t) :
    t.isSymbol .semicolon = false := by
  rw [← Bool.not_eq_true, Token.isSymbol_iff]
  intro hd
  cases h with
  | binary hrule hs =>
    cases hd.symm.trans hs
    cases hrule
  | unary hrule hs =>
    cases hd.symm.trans hs
    cases hrule
  | literal hv => exact hv.ne_symbol .semicolon hd
  | leftParen ho => cases hd.symm.trans ho
  | rightParen hc => cases hd.symm.trans hc

/-- So a block ends at the first semicolon. -/
theorem Derives.takeWhile_block {n : Nonterminal} {c : List Token} {t : Token} {e : Expr}
    (h : Derives n c e) (ht : t.data = .symbol .semicolon) (rest : List Token) :
    (c ++ t :: rest).takeWhile (fun t => !t.isSymbol .semicolon) = c := by
  rw [List.takeWhile_append_of_pos fun t ht => by simp [(h.isTerminal t ht).not_semicolon],
    List.takeWhile_cons_of_neg (by simp [Token.isSymbol_iff.2 ht]), List.append_nil]

/-- **The blocks of a sequence are determined.** -/
theorem derivesSequence_unique {ts : List Token} {bs bs' : List (List Token × Expr)}
    (h : DerivesSequence ts bs) (h' : DerivesSequence ts bs') : bs = bs' := by
  induction h generalizing bs' with
  | nil =>
    generalize hts : ([] : List Token) = ts at h'
    cases h' with
    | nil => rfl
    | cons => simp at hts
  | @cons c rest t e bs hc ht _ ih =>
    generalize hts : c ++ t :: rest = ts at h'
    cases h' with
    | nil => simp at hts
    | @cons c' rest' t' e' bs' hc' ht' hrest' =>
      -- either first block reaches up to the first semicolon
      have hcc : c = c' := by
        rw [← hc.takeWhile_block ht rest, hts, hc'.takeWhile_block ht']
      subst hcc
      cases List.append_cancel_left hts
      rw [derives_unique hc hc', ih hrest']

/-! ## The reader of one block -/

/-- An expression and its semicolon are read exactly if the expression is, with a semicolon behind
it. -/
theorem result_readTerminated {ts rest : List Token} {e : Expr} :
    (readTerminated ts).result = .ok (e, rest) ↔
      ∃ t, t.data = .symbol .semicolon ∧ Descent (.level .comma) ts (.ok (e, t :: rest)) := by
  simp only [Descent.iff_run_eq, Task.run, readTerminated, readExpression]
  split
  · rename_i x rest' le h
    simp [h]
  · rename_i e' lt h
    simp [h]
  · rename_i e' t rest' lt h
    simp only [h, Reading.result_done, Except.ok.injEq, Prod.mk.injEq, List.cons.injEq]
    split
    · rename_i ht
      simp only [Reading.result_done, Except.ok.injEq, Prod.mk.injEq]
      constructor
      · rintro ⟨rfl, rfl⟩
        exact ⟨t, Token.isSymbol_iff.1 ht, rfl, rfl, rfl⟩
      · rintro ⟨-, -, rfl, -, rfl⟩
        exact ⟨rfl, rfl⟩
    · rename_i ht
      simp only [Reading.result_stuck, reduceCtorEq, false_iff]
      rintro ⟨_, hs, -, rfl, -⟩
      exact ht (Token.isSymbol_iff.2 hs)

/-- It is stuck where the expression is, or where another token than a semicolon stands behind the
expression. -/
theorem result_readTerminated_error {ts rest : List Token} {x : Expected} :
    (readTerminated ts).result = .error (x, rest) ↔
      Descent (.level .comma) ts (.error (x, rest)) ∨
        x = .semicolon ∧ (∀ t ∈ rest.head?, ¬ t.isSymbol .semicolon = true) ∧
          ∃ e, Descent (.level .comma) ts (.ok (e, rest)) := by
  simp only [Descent.iff_run_eq, Task.run, readTerminated, readExpression]
  split
  · rename_i x' rest' le h
    simp [h]
  · rename_i e' lt h
    simp only [h, Reading.result_done, Reading.result_stuck, Except.error.injEq, Prod.mk.injEq,
      reduceCtorEq, false_or, Except.ok.injEq]
    constructor
    · rintro ⟨rfl, rfl⟩
      exact ⟨rfl, fun t ht => absurd ht (Option.not_mem_none t), e', rfl, rfl⟩
    · rintro ⟨rfl, -, _, -, rfl⟩
      exact ⟨rfl, rfl⟩
  · rename_i e' t rest' lt h
    simp only [h, Reading.result_done, reduceCtorEq, false_or, Except.ok.injEq, Prod.mk.injEq]
    split
    · rename_i ht
      simp only [Reading.result_done, reduceCtorEq, false_iff]
      rintro ⟨-, hnot, _, -, rfl⟩
      exact hnot t rfl ht
    · rename_i ht
      simp only [Reading.result_stuck, Except.error.injEq, Prod.mk.injEq]
      constructor
      · rintro ⟨rfl, rfl⟩
        exact ⟨rfl, fun u hu => Option.mem_some_iff.1 hu ▸ ht, e', rfl, rfl⟩
      · rintro ⟨rfl, -, _, -, rfl⟩
        exact ⟨rfl, rfl⟩

/-- So a block is read exactly if it stands in front. -/
theorem result_readTerminated_iff_derives {ts rest : List Token} {e : Expr} :
    (readTerminated ts).result = .ok (e, rest) ↔
      ∃ c t, ts = c ++ t :: rest ∧ Derives .comma c e ∧ t.data = .symbol .semicolon := by
  rw [result_readTerminated]
  constructor
  · rintro ⟨t, ht, hd⟩
    obtain ⟨c, hc, hder, -⟩ := descent_comma_iff.1 hd
    exact ⟨c, t, hc, hder, ht⟩
  · rintro ⟨c, t, hc, hder, ht⟩
    refine ⟨t, ht, descent_comma_iff.2 ⟨c, hc, hder, ?_⟩⟩
    rintro t' ht' ⟨n, s, m, hrule, hs⟩
    cases Option.mem_some_iff.1 ht'
    cases ht.symm.trans hs
    cases hrule

end Grammar

/-! ## The items of a sequence -/

namespace TokenStream

open Grammar

/-- There are no items exactly where no token is left. -/
theorem items_eq_nil_iff {s : TokenStream} : s.items = [] ↔ s.ahead = [] := by
  refine ⟨fun h => ?_, items_of_nil⟩
  cases hs : s.ahead with
  | nil => rfl
  | cons t ts =>
    cases hr : readTerminated (t :: ts) with
    | done e rest lt => simp [items_of_done hs hr] at h
    | stuck x rest le => simp [items_of_stuck hs hr] at h

/-- The first item succeeds exactly if a block stands in front. -/
theorem items_eq_ok_cons_iff {s : TokenStream} {e : Expr} {is : List Item} :
    s.items = .ok e :: is ↔
      ∃ rest, (readTerminated s.ahead).result = .ok (e, rest) ∧ (s.withAhead rest).items = is := by
  cases hs : s.ahead with
  | nil => simp [items_of_nil hs, result_readTerminated_iff_derives]
  | cons t ts =>
    cases hr : readTerminated (t :: ts) with
    | done e' rest' lt =>
      rw [items_of_done hs hr]
      constructor
      · intro h
        cases h
        exact ⟨rest', rfl, rfl⟩
      · rintro ⟨rest, h, rfl⟩
        cases h
        rfl
    | stuck x rest' le =>
      rw [items_of_stuck hs hr]
      constructor
      · intro h
        cases h
      · rintro ⟨rest, h, -⟩
        cases h

/-- Where no block stands in front the first item fails, and the next ones are read from where
parsing goes on. -/
theorem items_of_result_error {s : TokenStream} {x : Expected} {rest : List Token}
    (hne : s.ahead ≠ []) (h : (readTerminated s.ahead).result = .error (x, rest)) :
    s.items = .error (.atToken x (s.withAhead rest).peek) ::
      (s.withAhead (synchronize rest)).items := by
  cases hs : s.ahead with
  | nil => exact absurd hs hne
  | cons t ts =>
    rw [hs] at h
    obtain ⟨le, hread⟩ := Reading.exists_of_result_error h
    exact items_of_stuck hs hread

/-- **The items all succeed exactly on a sequence of blocks.** -/
theorem items_eq_map_ok_iff {s : TokenStream} {es : List Expr} :
    s.items = es.map .ok ↔ ∃ bs, DerivesSequence s.ahead bs ∧ bs.map Prod.snd = es := by
  constructor
  · intro h
    induction es generalizing s with
    | nil =>
      rw [items_eq_nil_iff.1 h]
      exact ⟨[], .nil, rfl⟩
    | cons e es ih =>
      obtain ⟨rest, hr, hrest⟩ := items_eq_ok_cons_iff.1 h
      obtain ⟨c, t, hc, hder, ht⟩ := result_readTerminated_iff_derives.1 hr
      obtain ⟨bs, hbs, rfl⟩ := ih hrest
      exact ⟨(c, e) :: bs, hc ▸ .cons hder ht hbs, rfl⟩
  · rintro ⟨bs, hbs, rfl⟩
    -- the blocks are used up one by one, and the stream with them
    generalize hs : s.ahead = ts at hbs
    induction hbs generalizing s with
    | nil => exact items_of_nil hs
    | cons hder ht _ ih =>
      rw [List.map_cons, List.map_cons, items_eq_ok_cons_iff]
      exact ⟨_, result_readTerminated_iff_derives.2 ⟨_, _, hs, hder, ht⟩, ih rfl⟩

/-- Items without an error are the trees of the sequence. -/
theorem items_eq_map_ok_of_errors_eq_nil {s : TokenStream} (h : s.errors = []) :
    s.items = s.expressions.map .ok := by
  rw [errors, List.filterMap_eq_nil_iff] at h
  rw [expressions]
  generalize s.items = is at h
  induction is with
  | nil => rfl
  | cons i is ih =>
    have htail := ih fun j hj => h j (List.mem_cons_of_mem _ hj)
    cases i with
    | error x => exact absurd (h _ List.mem_cons_self) (by simp [Item.error?])
    | ok e =>
      have hcons : (Except.ok e :: is).filterMap Item.expr? = e :: is.filterMap Item.expr? := rfl
      rw [hcons, List.map_cons, ← htail]

/-- And items that all succeed leave none. -/
theorem errors_expressions_of_items_eq {s : TokenStream} {es : List Expr}
    (h : s.items = es.map .ok) : s.errors = [] ∧ s.expressions = es := by
  simp [errors, expressions, h, List.filterMap_map, Function.comp_def, Item.error?, Item.expr?]

end TokenStream

namespace Grammar

open TokenStream

/-- A sequence of tokens is accepted exactly if its items all succeed. -/
theorem parseSequence_eq_ok_iff {ts : List Token} {es : List Expr} :
    parseSequence ts = .ok es ↔ (ofTokens ts).items = es.map .ok := by
  simp only [parseSequence]
  constructor
  · intro h
    have herr : (ofTokens ts).errors = [] := by
      cases hx : (ofTokens ts).errors with
      | nil => rfl
      | cons x xs => simp [hx, outcome] at h
    rw [herr] at h
    cases h
    exact items_eq_map_ok_of_errors_eq_nil herr
  · intro h
    obtain ⟨herr, hes⟩ := errors_expressions_of_items_eq h
    simp [herr, hes, outcome]

/-- What is not accepted is reported. -/
theorem exists_reports_of_parseSequence_ne_ok {ts : List Token}
    (h : ∀ es, parseSequence ts ≠ .ok es) : ∃ d ds, parseSequence ts = .error (d :: ds) := by
  simp only [parseSequence] at h ⊢
  cases hx : (ofTokens ts).errors with
  | nil => exact absurd (by simp [hx, outcome]) (h (ofTokens ts).expressions)
  | cons x xs => exact ⟨_, _, rfl⟩

/-- **A sequence is accepted exactly if it consists of expressions ended by semicolons.** The trees
are those of the blocks before the first end marker, which are determined; every other token list
is answered with at least one report. -/
theorem parseSequence_iff_derivesSequence (ts : List Token) :
    let before := ts.takeWhile fun t => !t.isEof
    (∀ es, parseSequence ts = .ok es ↔
      ∃ bs, DerivesSequence before bs ∧ bs.map Prod.snd = es) ∧
    ((∃ bs, DerivesSequence before bs) ∨ ∃ d ds, parseSequence ts = .error (d :: ds)) ∧
    ∀ bs bs', DerivesSequence before bs → DerivesSequence before bs' → bs = bs' := by
  intro before
  have hiff : ∀ es, parseSequence ts = .ok es ↔
      ∃ bs, DerivesSequence before bs ∧ bs.map Prod.snd = es := fun es => by
    rw [parseSequence_eq_ok_iff, items_eq_map_ok_iff]
    rfl
  refine ⟨hiff, ?_, fun bs bs' => derivesSequence_unique⟩
  by_cases h : ∃ bs, DerivesSequence before bs
  · exact .inl h
  · refine .inr (exists_reports_of_parseSequence_ne_ok fun es hes => h ?_)
    obtain ⟨bs, hbs, -⟩ := (hiff es).1 hes
    exact ⟨bs, hbs⟩

end Grammar

end Lox
