import Lox.Proofs.Postfix.Moves
import Lox.Proofs.Postfix.Parentheses
import Lox.Proofs.Postfix.PostOrder
/-!
# What postfix order keeps

No character is lost or made up on the way to postfix order, whether the
parentheses of the text are balanced or not. What is copied keeps its order,
an operator is either written or waits, and an opening parenthesis waits
exactly as long as it has no partner. So what is left of the parentheses are
the opening ones that are never closed.
-/


namespace Lox

open Grammar

namespace Shunting

theorem marks_of_mem_operators {c : Char} (h : c ∈ operators) :
    c ∈ marks ∧ c ≠ '(' ∧ c ≠ ')' := by
  have hall : (operators.all fun d => d ∈ marks ∧ d ≠ '(' ∧ d ≠ ')') = true := by decide
  exact of_decide_eq_true (List.all_eq_true.1 hall c h)

/-! ## One more character -/

/-- **`Conserves t out`**: the text `out` has the characters of `t`, but for parentheses. -/
structure Conserves (t out : Text) : Prop where
  /-- The characters that are copied are those of `t` in the same order. -/
  others : out.filter (· ∉ marks) = t.filter (· ∉ marks)
  operators : ∀ c ∈ ['+', '-', '*', '/'], out.count c = t.count c
  closing : ')' ∉ out
  /-- The opening parentheses are as many as `t` leaves without a partner. -/
  opening : out.count '(' = (unmatched t).length

namespace Conserves

variable {t front back : Text} {c : Char}

/-- **A character that is put in**, in front of what waits if it is copied. -/
theorem insert (h : Conserves t (front ++ back)) (hc : c ≠ ')')
    (hback : c ∉ marks → ∀ d ∈ back, d ∈ marks) : Conserves (t ++ [c]) (front ++ c :: back) where
  others := by
    have hothers := h.others
    by_cases hmark : c ∈ marks
    · simpa [hmark] using hothers
    · have hnone : back.filter (· ∉ marks) = [] :=
        List.filter_eq_nil_iff.2 fun d hd => by simpa using hback hmark d hd
      rw [List.filter_append, hnone, List.append_nil] at hothers
      rw [List.filter_append, List.filter_append, List.filter_cons_of_pos (by simpa using hmark),
        hnone, hothers, List.filter_cons_of_pos (by simpa using hmark), List.filter_nil]
  operators d hd := by
    rw [List.perm_middle.count_eq, List.count_cons, h.operators d hd, List.count_append,
      List.count_singleton]
  closing hmem := by
    rcases List.mem_cons.1 (List.perm_middle.mem_iff.1 hmem) with hcd | hmem
    · exact hc hcd.symm
    · exact h.closing hmem
  opening := by
    rw [List.perm_middle.count_eq, unmatched_concat, matchNext, if_neg hc]
    split
    · subst c
      rw [List.count_cons_self, h.opening, List.length_cons]
    · rename_i hopen
      rw [List.count_cons_of_ne hopen, h.opening]

/-- A closing parenthesis, for which an opening one is taken out. -/
theorem drop (h : Conserves t (front ++ '(' :: back)) : Conserves (t ++ [')']) (front ++ back) where
  others := by
    have hothers := h.others
    simpa [marks] using hothers
  operators d hd := by
    obtain ⟨-, hopen, hclose⟩ := marks_of_mem_operators hd
    have hcount := h.operators d hd
    rw [List.perm_middle.count_eq, List.count_cons_of_ne hopen.symm] at hcount
    rw [hcount, List.count_append, List.count_singleton, if_neg (by simpa using hclose.symm)]
    rfl
  closing hmem := h.closing (List.perm_middle.mem_iff.2 (List.mem_cons_of_mem _ hmem))
  opening := by
    have hcount := h.opening
    rw [List.perm_middle.count_eq, List.count_cons_self] at hcount
    rw [unmatched_concat, matchNext, if_neg (by decide), if_pos rfl, List.length_tail, ← hcount,
      Nat.add_sub_cancel]

/-- A closing parenthesis that has none to close. -/
theorem stray (h : Conserves t front) (hopen : '(' ∉ front) : Conserves (t ++ [')']) front where
  others := by
    have hothers := h.others
    simpa [marks] using hothers
  operators d hd := by
    obtain ⟨-, -, hclose⟩ := marks_of_mem_operators hd
    rw [h.operators d hd, List.count_append, List.count_singleton,
      if_neg (by simpa using hclose.symm)]
    rfl
  closing := h.closing
  opening := by
    have hcount := h.opening
    rw [List.count_eq_zero_of_not_mem hopen] at hcount
    rw [unmatched_concat, matchNext, if_neg (by decide), if_pos rfl, List.length_tail, ← hcount,
      List.count_eq_zero_of_not_mem hopen]

end Conserves

/-! ## A run -/

/-- **What a reading of `t` keeps**: finished now, it would have conserved `t`. -/
structure Keeps (t : Text) (s : Shunting) : Prop where
  conserves : Conserves t s.finish
  /-- No opening parenthesis is written before the end. -/
  written : '(' ∉ s.written
  /-- Nothing that is copied waits. -/
  waiting : ∀ c ∈ s.waiting, c ∈ marks

namespace Keeps

variable {t w : Text} {ops stack : List Char} {c : Char}

theorem start : Keeps [] .start where
  conserves := ⟨rfl, fun _ _ => rfl, List.not_mem_nil, rfl⟩
  written := List.not_mem_nil
  waiting _ hc := absurd hc List.not_mem_nil

/-- Letting out operators changes nothing in the end. -/
theorem letOut (h : Keeps t ⟨w, ops ++ stack⟩) (hops : '(' ∉ ops) :
    Keeps t ⟨ops.reverse ++ w, stack⟩ where
  conserves := by
    have hfinish : finish ⟨ops.reverse ++ w, stack⟩ = finish ⟨w, ops ++ stack⟩ := by simp [finish]
    rw [hfinish]
    exact h.conserves
  written hmem := by
    rcases List.mem_append.1 hmem with hmem | hmem
    · exact hops (List.mem_reverse.1 hmem)
    · exact h.written hmem
  waiting c hc := h.waiting c (List.mem_append_right ops hc)

/-- A mark other than a closing parenthesis waits. -/
theorem push (h : Keeps t ⟨w, stack⟩) (hc : c ∈ marks) (hclose : c ≠ ')') :
    Keeps (t ++ [c]) ⟨w, c :: stack⟩ where
  conserves := h.conserves.insert hclose fun hnot => absurd hc hnot
  written := h.written
  waiting := List.forall_mem_cons.2 ⟨hc, h.waiting⟩

/-- **Every move keeps what was kept.** -/
theorem move {s s' : Shunting} (h : Keeps t s) (hmove : Move s c s') : Keeps (t ++ [c]) s' := by
  cases hmove with
  | @copy w stack c hc =>
    obtain ⟨hopen, hclose⟩ := ne_paren_of_not_mark hc
    have hfinish : finish ⟨c :: w, stack⟩ = w.reverse ++ c :: stack := by simp [finish]
    refine ⟨?_, ?_, h.waiting⟩
    · rw [hfinish]
      exact h.conserves.insert hclose fun _ => h.waiting
    · rw [List.mem_cons, not_or]
      exact ⟨hopen.symm, h.written⟩
  | opening => exact h.push (by decide) (by decide)
  | @closing w ops stack hops =>
    have hout := h.letOut hops
    refine ⟨hout.conserves.drop, hout.written, fun d hd => ?_⟩
    exact hout.waiting d (List.mem_cons_of_mem _ hd)
  | @stray w ops hops =>
    have hout : Keeps t ⟨ops.reverse ++ w, []⟩ := letOut (by rwa [List.append_nil]) hops
    have hfinish : '(' ∉ finish ⟨ops.reverse ++ w, []⟩ := by
      rw [finish, List.append_nil, List.mem_reverse]
      exact hout.written
    exact ⟨hout.conserves.stray hfinish, hout.written, hout.waiting⟩
  | operator hp hops =>
    obtain ⟨hmark, -, hclose⟩ := marks_of_mem_operators (mem_operators_of_precedence? hp)
    exact (h.letOut fun hmem => ne_open_of_bindsAtLeast (hops _ hmem) rfl).push hmark hclose

/-- **So does every run.** -/
theorem run (t : Text) : Keeps t (Shunting.start.run t) := by
  induction t using List.reverseRecOn with
  | nil => exact .start
  | append_singleton t c ih =>
    rw [run_append]
    exact ih.move (move_step _ c)

end Keeps

end Shunting

/-! ## Trees -/

open Shunting

/-- No operator of an expression is spelled with a parenthesis. -/
theorem Token.IsSpelled.balanced {o : Token} (h : o.IsSpelled) {s : Symbol}
    (hs : o.data = .symbol s) (hopen : s ≠ .leftParen) (hclose : s ≠ .rightParen) :
    Balanced o.lexeme := by
  rw [h.lexeme_eq hs]
  refine .of_not_mem ?_ ?_
  · cases s <;> first | decide | exact absurd rfl hopen
  · cases s <;> first | decide | exact absurd rfl hclose

/-- **The flat text of a tree is balanced**, if none of its strings has a parenthesis. -/
theorem Grammar.Derives.balanced {n : Nonterminal} {ts : List Token} {e : Expr}
    (h : Derives n ts e) (hl : e.Lexical)
    (hstr : ∀ v, Literal.str v ∈ e.literals → '(' ∉ v ∧ ')' ∉ v) : Balanced e.infixText := by
  induction h with
  | unit _ _ ih => exact ih hl hstr
  | binary hrule ht _ _ ihl ihr =>
    obtain ⟨hll, ho, hlr⟩ := Expr.lexical_binary.1 hl
    have hoperator := ho.balanced ht (by cases hrule <;> decide) (by cases hrule <;> decide)
    rw [Expr.infixText]
    refine ((ihl hll fun v hv => hstr v ?_).append hoperator).append (ihr hlr fun v hv => hstr v ?_)
    · exact List.mem_append_left _ hv
    · exact List.mem_append_right _ hv
  | unary hrule ht _ ih =>
    obtain ⟨ho, hl⟩ := Expr.lexical_unary.1 hl
    have hoperator := ho.balanced ht (by cases hrule <;> decide) (by cases hrule <;> decide)
    exact hoperator.append (ih hl hstr)
  | @literal _ v _ =>
    have hv := hl.literals v List.mem_cons_self
    cases v with
    | number n =>
      obtain ⟨m, rfl⟩ := hv
      exact .of_not_mem (fun hc => Number.not_mem_marks hc (by decide))
        fun hc => Number.not_mem_marks hc (by decide)
    | str v =>
      obtain ⟨hopen, hclose⟩ := hstr v List.mem_cons_self
      exact .of_not_mem hopen hclose
    | boolean b => cases b <;> exact .of_not_mem (by decide) (by decide)
    | nil => exact .of_not_mem List.not_mem_nil List.not_mem_nil
  | group _ _ _ ih => exact (ih (Expr.lexical_group.1 hl) hstr).group

/-- **Postfix order loses nothing and makes up nothing**, on every text. It has the characters that
are copied in their order, and each operator as often as the text has it; of the parentheses it has
the opening ones that are left without a partner. So a tree of a source has none in postfix order,
unless one of its strings has one. -/
theorem toPostfix_conserves :
    (∀ t, Conserves t (toPostfix t)) ∧
      ∀ source e, parseSource source = .ok e →
        (∀ v, Literal.str v ∈ e.literals → '(' ∉ v ∧ ')' ∉ v) →
        '(' ∉ e.polishText ∧ ')' ∉ e.polishText := by
  have hconserves : ∀ t, Conserves t (toPostfix t) := fun t => (Keeps.run t).conserves
  refine ⟨hconserves, fun source e h hstr => ⟨?_, (hconserves _).closing⟩⟩
  obtain ⟨ts, hder, -⟩ := exists_tokens_of_parseSource h
  have hbalanced : Balanced e.infixText := hder.balanced (lexical_of_parseSource h) hstr
  have hcount := (hconserves e.infixText).opening
  rw [hbalanced.unmatched_eq_nil] at hcount
  exact List.count_eq_zero.1 hcount

/-- Of the parentheses of `)a*((b)+c` the first opening one is left, below the sum. The grouping of
a tree leaves none. -/
theorem toPostfix_conserves_unmatched :
    (toPostfix ")a*((b)+c".toList = "abc+(*".toList ∧
        Conserves ")a*((b)+c".toList "abc+(*".toList) ∧
      ∃ e, parseSource "(\"a\" - nil) * true".toList = .ok e ∧
        (∀ v, Literal.str v ∈ e.literals → '(' ∉ v ∧ ')' ∉ v) ∧
        '(' ∉ e.polishText ∧ ')' ∉ e.polishText := by
  let op (s : Symbol) : Token := ⟨.symbol s, s.spelling, 1⟩
  let e : Expr := .binary (.group (.binary (.literal (.str ['a'])) (op .minus) (.literal .nil)))
    (op .star) (.literal (.boolean true))
  have h : parseSource "(\"a\" - nil) * true".toList = .ok e :=
    parseSource_eq_ok_of_toOption (by decide +kernel)
  have hstr : ∀ v, Literal.str v ∈ e.literals → '(' ∉ v ∧ ')' ∉ v := by
    intro v hv
    have hlit : Literal.str v ∈ [Literal.str ['a'], .nil, .boolean true] := hv
    simp only [List.mem_cons, List.not_mem_nil, Literal.str.injEq, reduceCtorEq, or_false] at hlit
    subst hlit
    decide
  have hout : toPostfix ")a*((b)+c".toList = "abc+(*".toList := by decide
  exact ⟨⟨hout, hout ▸ toPostfix_conserves.1 _⟩, e, h, hstr, toPostfix_conserves.2 _ e h hstr⟩

end Lox
