import Lox.Proofs.Parser.Calls
import Mathlib.Order.Bounds.Basic
/-!
# The rounds of a sequence

A parser reads a sequence in rounds, one item each. An item that succeeds has
at least a token and its semicolon. One that fails does so at a token, and the
next round starts behind that token, at the first place where an item can be
expected to start; so no token is reported twice. At the end of the tokens an
item fails once, and then nothing is left.
-/


namespace Lox

/-- The words that start a statement. -/
def statementWords : List Keyword :=
  [.classWord, .funWord, .varWord, .forWord, .ifWord, .whileWord, .printWord, .returnWord]

theorem Token.startsStatement_iff {t : Token} :
    t.startsStatement = true ↔ ∃ k ∈ statementWords, t.data = .keyword k := by
  rw [Token.startsStatement]
  split
  · rename_i k hk
    simp only [hk, TokenData.keyword.injEq, exists_eq_right']
    cases k <;> decide
  · rename_i hnot
    refine ⟨nofun, ?_⟩
    rintro ⟨k, -, hk⟩
    exact absurd hk (hnot k)

namespace Parser

variable {p q r : Parser}

/-- The index at which the tokens ahead end: that of the next end marker, or of the end of the
list. -/
def endIndex (p : Parser) : Nat := p.current + p.left

/-- A round: the index at which an item starts, what comes of it, the index at which the attempt
stops, and the index at which the next round starts. An attempt that fails stops at the token that
does not fit. -/
structure Round where
  start : Nat
  item : Item
  stop : Nat
  next : Nat
deriving DecidableEq

namespace Round

/-- The tree of a round that succeeds. -/
def expr? (r : Round) : Option Expr := r.item.expr?

/-- The report of a round that fails. -/
def report? (r : Round) : Option Diagnostic := r.item.error?.map ParseError.diagnostic

/-- The index of the token at which a round fails. -/
def fault? (r : Round) : Option Nat := r.item.error?.map fun _ => r.stop

end Round

/-- **The rounds of a sequence**, as the parser makes them. -/
def rounds (p : Parser) : List Round :=
  if _h : p.isAtEnd then
    []
  else
    match p.terminated with
    | .done e q _ => ⟨p.current, .ok e, q.current, q.current⟩ :: q.rounds
    | .stuck error q _ =>
      ⟨p.current, .error error, q.current, q.synchronize.current⟩ :: q.synchronize.rounds
termination_by p.left
decreasing_by
  · omega
  · have := left_synchronize_le q
    have := left_next _h
    omega

/-- The items of the rounds are those of the stream in front of the parser. -/
theorem map_item_rounds (p : Parser) : p.rounds.map Round.item = p.stream.items := by
  fun_induction rounds p with
  | case1 p hend => rw [TokenStream.items_of_nil (ahead_of_isAtEnd hend), List.map_nil]
  | case2 p hend e q lt h ih =>
    obtain ⟨hitems, -⟩ := items_of_terminated_ok (congrArg Outcome.result h)
    rw [List.map_cons, ih, hitems]
  | case3 p hend error q le h ih =>
    obtain ⟨hitems, -⟩ := items_of_terminated_error hend (congrArg Outcome.result h)
    rw [List.map_cons, ih, hitems]

/-- **A sequence gives the trees of its rounds and reports their faults**, in order. -/
theorem run_parseSequence_rounds (p : Parser) (sink : Diagnostics) :
    p.parseSequence.run sink =
      ((p.rounds.filterMap Round.expr?, p.past p.left),
        sink ++ p.rounds.filterMap Round.report?) := by
  rw [run_parseSequence, TokenStream.expressions, TokenStream.errors, ← map_item_rounds,
    List.filterMap_map, List.filterMap_map, List.map_filterMap]
  rfl

/-! ## Going on after a fault -/

/-- Whether a round may start at the index `k` after a fault: at the end, behind a semicolon or in
front of a word that starts a statement. -/
def GoesOnAt (ts : List Token) (last k : Nat) : Prop :=
  k = last ∨ (∃ t, ts[k - 1]? = some t ∧ t.data = .symbol .semicolon) ∨
    ∃ t, ts[k]? = some t ∧ ∃ w ∈ statementWords, t.data = .keyword w

/-- What a parser asks at its own place. -/
def GoesOn (p : Parser) : Prop :=
  p.isAtEnd = true ∨ p.previous.isSymbol .semicolon = true ∨ p.peek.startsStatement = true

/-- **After an error parsing goes on at the first place where it may.** -/
theorem isLeast_resume (p : Parser) :
    IsLeast {k | p.current ≤ k ∧ GoesOn ⟨p.tokens, k⟩} p.resume.current := by
  fun_induction resume p with
  | case1 p hend => exact ⟨⟨Nat.le_refl _, .inl hend⟩, fun k hk => hk.1⟩
  | case2 p hend hstop =>
    have hgo : GoesOn p := .inr (Bool.or_eq_true_iff.1 hstop)
    exact ⟨⟨Nat.le_refl _, hgo⟩, fun k hk => hk.1⟩
  | case3 p hend hstop ih =>
    have hnext : p.next = ⟨p.tokens, p.current + 1⟩ := by
      rw [next, if_neg hend]
    have hnot : ¬ GoesOn p := by
      rintro (h | h)
      · exact hend h
      · exact hstop (Bool.or_eq_true_iff.2 h)
    rw [hnext] at ih ⊢
    obtain ⟨⟨hle, hgo⟩, hleast⟩ := ih
    refine ⟨⟨Nat.le_of_succ_le hle, hgo⟩, fun k hk => hleast ⟨?_, hk.2⟩⟩
    -- the place of the parser itself is not among them
    refine Nat.lt_of_le_of_ne hk.1 ?_
    rintro rfl
    exact hnot hk.2

theorem isAtEnd_past_iff {n : Nat} (h : n ≤ p.left) : (p.past n).isAtEnd = true ↔ n = p.left := by
  have hlen : (p.ahead.take n).length = n := List.length_take_of_le h
  have hahead : (p.past n).ahead = p.ahead.drop n := by
    have hpast := ahead_past (List.take_append_drop n p.ahead).symm
    rwa [hlen] at hpast
  rw [← ahead_eq_nil_iff, hahead, List.drop_eq_nil_iff, left]
  rw [left] at h
  omega

/-- What is looked for is found in the list, and not in the marker behind it. -/
theorem data_getD_iff {o : Option Token} {line : Nat} {d : TokenData} (hd : d ≠ .eof) :
    (o.getD (.eof line)).data = d ↔ ∃ t, o = some t ∧ t.data = d := by
  cases o with
  | none => simpa [Token.eof] using hd.symm
  | some t => simp

/-- **Where it may go on is seen from the list**, up to the end of the tokens. -/
theorem goesOn_iff {k : Nat} (hlt : p.current < k) (hle : k ≤ p.endIndex) :
    GoesOn ⟨p.tokens, k⟩ ↔ GoesOnAt p.tokens p.endIndex k := by
  have hpast : (⟨p.tokens, k⟩ : Parser) = p.past (k - p.current) := by
    rw [past, Nat.add_sub_cancel' (Nat.le_of_lt hlt)]
  rw [endIndex] at hle
  refine or_congr ?_ (or_congr ?_ ?_)
  · rw [hpast, isAtEnd_past_iff (by omega), endIndex]
    omega
  · obtain ⟨n, rfl⟩ := Nat.exists_eq_add_of_lt hlt
    rw [Token.isSymbol_iff]
    exact data_getD_iff (by simp)
  · have hword : ∀ w, (⟨p.tokens, k⟩ : Parser).peek.data = .keyword w ↔
        ∃ t, p.tokens[k]? = some t ∧ t.data = .keyword w := fun w => data_getD_iff (by simp)
    simp only [Token.startsStatement_iff, hword]
    constructor
    · rintro ⟨w, hw, t, ht, hd⟩
      exact ⟨t, ht, w, hw, hd⟩
    · rintro ⟨t, ht, w, hw, hd⟩
      exact ⟨w, hw, t, ht, hd⟩

theorem getElem?_of_not_isAtEnd (h : ¬ p.isAtEnd = true) :
    p.tokens[p.current]? = some p.peek := by
  rw [isAtEnd, peek] at h
  rw [peek]
  cases hp : p.tokens[p.current]? with
  | none =>
    rw [hp] at h
    exact absurd rfl h
  | some t => rfl

/-- The parser at its own end. -/
theorem synchronize_of_isAtEnd (h : p.isAtEnd = true) : p.synchronize = p := by
  rw [synchronize, next, if_pos h, resume, dif_pos h]

/-- **After a fault in front of the end** a round starts at the first place behind the fault where
it may. -/
theorem isLeast_synchronize (h : ¬ p.isAtEnd = true) :
    IsLeast {k | p.current < k ∧ GoesOnAt p.tokens p.endIndex k} p.synchronize.current := by
  have hnext : p.next = ⟨p.tokens, p.current + 1⟩ := by rw [next, if_neg h]
  have hleft := left_next h
  have hleast := p.next.isLeast_resume
  rw [← synchronize, hnext] at hleast
  obtain ⟨⟨hle, hgo⟩, hmin⟩ := hleast
  have hend : p.synchronize.current ≤ p.endIndex := by
    have hadd := p.reaches_synchronize.current_add
    rw [endIndex]
    omega
  refine ⟨⟨hle, (goesOn_iff hle hend).1 hgo⟩, fun k hk => ?_⟩
  obtain ⟨hlt, hk⟩ := hk
  by_cases hkend : k ≤ p.endIndex
  · exact hmin ⟨hlt, (goesOn_iff hlt hkend).2 hk⟩
  · omega

/-! ## One round -/

/-- **What a round does** between the tokens `ts`, which end at the index `last`. -/
inductive Round.Advances (ts : List Token) (last : Nat) : Round → Prop
  /-- An item that succeeds has two tokens at least, and the next round starts behind it. -/
  | succeeds {e : Expr} {i j : Nat} : i + 2 ≤ j → j ≤ last → Advances ts last ⟨i, .ok e, j, j⟩
  /-- After a fault at the token number `j` the next round starts at the first place behind it where
  one may. -/
  | fails {x : Expected} {t : Token} {i j k : Nat} : i ≤ j → j < last →
      ts[j]? = some t → t.isEof = false →
      IsLeast {l | j < l ∧ GoesOnAt ts last l} k →
      Advances ts last ⟨i, .error (.atToken x t), j, k⟩
  /-- A fault at the end is about the end marker, and leaves nothing. -/
  | failsAtEnd {x : Expected} {i : Nat} : i < last →
      Advances ts last ⟨i, .error (.atToken x (⟨ts, last⟩ : Parser).peek), last, last⟩

theorem Reaches.endIndex_eq {rest : List Token} (h : p.Reaches rest q) :
    q.endIndex = p.endIndex := by
  have hadd := h.current_add
  rw [endIndex, endIndex, left, h.ahead]
  exact hadd

/-- An expression has a token, and a semicolon behind it. -/
theorem left_of_terminated_ok {e : Expr} (h : p.terminated.result = (.ok e, q)) :
    q.left + 2 ≤ p.left := by
  rw [result_terminated] at h
  cases hp : p.expression with
  | stuck error q' le =>
    rw [hp] at h
    cases h
  | done e' q' lt =>
    rw [hp, Outcome.result_done] at h
    cases hc : q'.consume .semicolon .semicolon with
    | error error =>
      simp only [andThen, hc] at h
      cases h
    | ok passed =>
      simp only [andThen, hc] at h
      cases h
      have hleft := left_of_consume hc
      omega

/-- A round that succeeds. -/
theorem advances_of_terminated_ok {e : Expr} (h : p.terminated.result = (.ok e, q)) :
    Round.Advances p.tokens p.endIndex ⟨p.current, .ok e, q.current, q.current⟩ := by
  obtain ⟨-, hq⟩ := items_of_terminated_ok h
  have hleft := left_of_terminated_ok h
  have hadd := hq.current_add
  rw [← left] at hadd
  refine .succeeds (by omega) ?_
  rw [endIndex]
  omega

/-- A round that fails. -/
theorem advances_of_terminated_error {f : ParseError} (hend : ¬ p.isAtEnd = true)
    (h : p.terminated.result = (.error f, q)) :
    Round.Advances p.tokens p.endIndex
      ⟨p.current, .error f, q.current, q.synchronize.current⟩ := by
  have hf := p.follows_terminated
  rw [h] at hf
  generalize (readTerminated p.ahead).result = result at hf
  cases hf with
  | @stuck x rest _ hq =>
    have hlast : q.endIndex = p.endIndex := hq.endIndex_eq
    have htokens : q.tokens = p.tokens := hq.tokens_eq
    by_cases hqend : q.isAtEnd = true
    · have hqlast : q.current = p.endIndex := by
        rw [← hlast, endIndex, left, ahead_of_isAtEnd hqend, List.length_nil, Nat.add_zero]
      have hleft := left_next hend
      rw [synchronize_of_isAtEnd hqend]
      have hq' : q = ⟨p.tokens, p.endIndex⟩ := by rw [← htokens, ← hqlast]
      subst hq'
      refine .failsAtEnd ?_
      rw [endIndex]
      omega
    · have hleft := left_next hqend
      have hleast := isLeast_synchronize hqend
      have htoken := getElem?_of_not_isAtEnd hqend
      rw [htokens, hlast] at hleast
      rw [htokens] at htoken
      refine .fails hq.current_le ?_ htoken (Bool.not_eq_true _ ▸ hqend) hleast
      rw [← hlast, endIndex]
      omega

/-! ## All rounds -/

/-- **Every round advances.** -/
theorem advances_of_mem_rounds (p : Parser) :
    ∀ r ∈ p.rounds, r.Advances p.tokens p.endIndex := by
  fun_induction rounds p with
  | case1 => exact fun r hr => absurd hr List.not_mem_nil
  | case2 p hend e q lt h ih =>
    have hq := (items_of_terminated_ok (congrArg Outcome.result h)).2
    rw [hq.tokens_eq, hq.endIndex_eq] at ih
    exact List.forall_mem_cons.2 ⟨advances_of_terminated_ok (congrArg Outcome.result h), ih⟩
  | case3 p hend error q le h ih =>
    have hq := (items_of_terminated_error hend (congrArg Outcome.result h)).2
    rw [hq.tokens_eq, hq.endIndex_eq] at ih
    exact List.forall_mem_cons.2
      ⟨advances_of_terminated_error hend (congrArg Outcome.result h), ih⟩

/-- **Rounds in a row from the index `i` to `j`**: each starts where the one before it goes on. -/
def InRow : Nat → List Round → Nat → Prop
  | i, [], j => i = j
  | i, r :: rs, j => r.start = i ∧ InRow r.next rs j

theorem inRow_rounds (p : Parser) : InRow p.current p.rounds p.endIndex := by
  fun_induction rounds p with
  | case1 p hend =>
    rw [InRow, endIndex, left, ahead_of_isAtEnd hend]
    rfl
  | case2 p hend e q lt h ih =>
    have hq := (items_of_terminated_ok (congrArg Outcome.result h)).2
    rw [hq.endIndex_eq] at ih
    exact ⟨rfl, ih⟩
  | case3 p hend error q le h ih =>
    have hq := (items_of_terminated_error hend (congrArg Outcome.result h)).2
    rw [hq.endIndex_eq] at ih
    exact ⟨rfl, ih⟩

section

variable {ts : List Token} {last i j : Nat} {r r' : Round} {rs : List Round}

namespace Round.Advances

/-- A round stops between its own start and that of the next one, and not behind the end. -/
theorem bounds (h : r.Advances ts last) :
    r.start < last ∧ r.start ≤ r.stop ∧ r.stop ≤ r.next ∧ r.next ≤ last := by
  cases h with
  | succeeds hij hj =>
    dsimp only
    omega
  | fails hij hj _ _ hleast =>
    have hlt := hleast.1.1
    have hle := hleast.2 ⟨hj, .inl rfl⟩
    dsimp only
    omega
  | failsAtEnd hi =>
    dsimp only
    omega

/-- A tree takes two tokens, and a report one. -/
theorem count_le (h : r.Advances ts last) :
    2 * r.expr?.toList.length + r.report?.toList.length + r.start ≤ r.next := by
  cases h with
  | @succeeds _ i j hij =>
    show 2 * 1 + 0 + i ≤ j
    omega
  | @fails _ _ i j k hij _ _ _ hleast =>
    have hlt := hleast.1.1
    show 2 * 0 + 1 + i ≤ k
    omega
  | @failsAtEnd _ i hi =>
    show 2 * 0 + 1 + i ≤ last
    omega

/-- A fault is about the token at which the round stops, or at the end about the end marker. -/
theorem report?_eq {d : Diagnostic} (h : r.Advances ts last) (hd : r.report? = some d) :
    (∃ x, d = (ParseError.atToken x (⟨ts, r.stop⟩ : Parser).peek).diagnostic) ∧
      (r.stop < last → r.stop < r.next ∧ d.location ≠ " at end".toList) := by
  cases h with
  | succeeds => cases hd
  | @fails x t i j k _ _ ht heof hleast =>
    cases hd
    have hpeek : (⟨ts, j⟩ : Parser).peek = t := by rw [peek, ht, Option.getD_some]
    refine ⟨⟨x, by rw [hpeek]⟩, fun _ => ⟨hleast.1.1, ?_⟩⟩
    have hlocation : (ParseError.atToken x t).diagnostic.location = t.location := rfl
    rw [hlocation, Token.location_of_not_isEof heof]
    simp
  | @failsAtEnd x =>
    cases hd
    exact ⟨⟨x, rfl⟩, fun hlt => absurd hlt (Nat.lt_irrefl _)⟩

end Round.Advances

/-- Rounds in a row do not overlap. -/
theorem InRow.pairwise (h : InRow i rs j) (hrs : ∀ r ∈ rs, r.Advances ts last) :
    (∀ r ∈ rs, i ≤ r.start) ∧ rs.Pairwise fun r r' => r.next ≤ r'.start := by
  induction rs generalizing i with
  | nil => exact ⟨fun r hr => absurd hr List.not_mem_nil, .nil⟩
  | cons r rs ih =>
    obtain ⟨rfl, h⟩ := h
    obtain ⟨hr, hrs⟩ := List.forall_mem_cons.1 hrs
    obtain ⟨hle, hpairwise⟩ := ih h hrs
    have hbounds := hr.bounds
    refine ⟨List.forall_mem_cons.2 ⟨Nat.le_refl _, fun r' hr' => ?_⟩,
      List.pairwise_cons.2 ⟨hle, hpairwise⟩⟩
    have hstart := hle r' hr'
    omega

theorem length_filterMap_cons {α β : Type} (f : α → Option β) (a : α) (l : List α) :
    ((a :: l).filterMap f).length = (f a).toList.length + (l.filterMap f).length := by
  cases h : f a <;> simp [h, Nat.add_comm]

/-- **Trees and reports are paid for in tokens.** -/
theorem InRow.count_le (h : InRow i rs j) (hrs : ∀ r ∈ rs, r.Advances ts last) :
    2 * (rs.filterMap Round.expr?).length + (rs.filterMap Round.report?).length + i ≤ j := by
  induction rs generalizing i with
  | nil =>
    cases h
    simp
  | cons r rs ih =>
    obtain ⟨rfl, h⟩ := h
    obtain ⟨hr, hrs⟩ := List.forall_mem_cons.1 hrs
    have hround := hr.count_le
    have hrest := ih h hrs
    rw [length_filterMap_cons, length_filterMap_cons]
    omega

/-- **A round that fails in front of another one** has not come to the end, and the other one stops
further on. -/
theorem InRow.faults (h : InRow i rs j) (hrs : ∀ r ∈ rs, r.Advances ts last) :
    rs.Pairwise fun r r' => ∀ d, r.report? = some d →
      r.stop < r'.stop ∧ d.location ≠ " at end".toList := by
  refine (h.pairwise hrs).2.imp_of_mem fun {r r'} hr hr' hle d hd => ?_
  have hbounds := (hrs r hr).bounds
  have hbounds' := (hrs r' hr').bounds
  obtain ⟨hlt, hlocation⟩ := ((hrs r hr).report?_eq hd).2 (by omega)
  exact ⟨by omega, hlocation⟩

end

/-! ## Lines -/

/-- If the lines of the tokens never decrease, neither do those of what a parser sees further on. -/
theorem line_peek_le {ts : List Token} (h : ts.Pairwise fun t u => t.line ≤ u.line) {i j : Nat}
    (hij : i < j) : (⟨ts, i⟩ : Parser).peek.line ≤ (⟨ts, j⟩ : Parser).peek.line := by
  simp only [peek, endMarker]
  cases hj : ts[j]? with
  | some u =>
    obtain ⟨hlt, rfl⟩ := List.getElem?_eq_some_iff.1 hj
    have hi : ts[i]? = some ts[i] := List.getElem?_eq_getElem (Nat.lt_trans hij hlt)
    rw [hi]
    exact List.pairwise_iff_getElem.1 h i j (Nat.lt_trans hij hlt) hlt hij
  | none =>
    cases hi : ts[i]? with
    | none => exact Nat.le_refl _
    | some t =>
      -- the marker behind the list is on the line of the last token
      have hmem : t ∈ ts := List.mem_of_getElem? hi
      rcases List.eq_nil_or_concat ts with rfl | ⟨init, u, rfl⟩
      · cases hmem
      · rw [List.concat_eq_append] at h hmem ⊢
        rw [List.getLast?_concat]
        rcases List.mem_append.1 hmem with hmem | hmem
        · exact (List.pairwise_append.1 h).2.2 t hmem u List.mem_cons_self
        · rw [List.mem_singleton.1 hmem]
          exact Nat.le_refl _

/-! ## The whole sequence -/

/-- **A sequence makes progress.** -/
structure Progress (p : Parser) : Prop where
  /-- The sequence gives the trees of the rounds and reports their faults, and leaves the parser at
  the end. -/
  run_eq : ∀ sink, p.parseSequence.run sink =
    ((p.rounds.filterMap Round.expr?, ⟨p.tokens, p.endIndex⟩),
      sink ++ p.rounds.filterMap Round.report?)
  /-- The end is the first place ahead with an end marker, or the end of the list. -/
  isLeast_endIndex :
    IsLeast {k | p.current ≤ k ∧ (⟨p.tokens, k⟩ : Parser).isAtEnd = true} p.endIndex
  /-- The rounds lead from where the parser is to the end. -/
  inRow : InRow p.current p.rounds p.endIndex
  advances : ∀ r ∈ p.rounds, r.Advances p.tokens p.endIndex
  /-- A fault at the end is the last thing that happens. -/
  fault_at_end : ∀ before r after, p.rounds = before ++ r :: after →
    r.fault? = some p.endIndex → after = []
  /-- No token is reported twice. -/
  faults_pairwise : (p.rounds.filterMap Round.fault?).Pairwise (· < ·)
  /-- Only the last report can be about the end. -/
  location_ne_at_end : ∀ d ∈ (p.rounds.filterMap Round.report?).dropLast,
    d.location ≠ " at end".toList
  count_le : 2 * (p.rounds.filterMap Round.expr?).length +
    (p.rounds.filterMap Round.report?).length ≤ p.left
  /-- If the lines of the tokens never decrease, neither do those of the reports. -/
  lines_pairwise : (p.tokens.Pairwise fun t u => t.line ≤ u.line) →
    (p.rounds.filterMap Round.report?).Pairwise fun d d' => d.line ≤ d'.line

theorem isLeast_endIndex (p : Parser) :
    IsLeast {k | p.current ≤ k ∧ (⟨p.tokens, k⟩ : Parser).isAtEnd = true} p.endIndex := by
  refine ⟨⟨Nat.le_add_right _ _, (isAtEnd_past_iff (Nat.le_refl p.left)).2 rfl⟩, fun k hk => ?_⟩
  obtain ⟨n, rfl⟩ := Nat.exists_eq_add_of_le hk.1
  refine Nat.add_le_add_left (Nat.le_of_not_lt fun hlt => ?_) p.current
  exact Nat.ne_of_lt hlt ((isAtEnd_past_iff (Nat.le_of_lt hlt)).1 hk.2)

/-- A fault is where the round stops, and it is reported. -/
theorem Round.exists_of_fault? {r : Round} {k : Nat} (h : r.fault? = some k) :
    k = r.stop ∧ ∃ d, r.report? = some d := by
  obtain ⟨f, hf, rfl⟩ := Option.map_eq_some_iff.1 h
  exact ⟨rfl, f.diagnostic, by rw [report?, hf, Option.map_some]⟩

/-- **Every sequence makes progress**, wherever the parser is. -/
theorem progress_parseSequence (p : Parser) : Progress p := by
  have hrow := p.inRow_rounds
  have hadvances := p.advances_of_mem_rounds
  have hfaults := hrow.faults hadvances
  constructor
  case run_eq => exact p.run_parseSequence_rounds
  case isLeast_endIndex => exact p.isLeast_endIndex
  case inRow => exact hrow
  case advances => exact hadvances
  case fault_at_end =>
    intro before r after hrounds hr
    obtain ⟨hstop, d, hd⟩ := Round.exists_of_fault? hr
    cases after with
    | nil => rfl
    | cons r' after =>
      rw [hrounds] at hfaults hadvances
      have hlt := (List.pairwise_cons.1 (List.pairwise_append.1 hfaults).2.1).1 r'
        List.mem_cons_self d hd
      have hbounds := (hadvances r' (by simp)).bounds
      omega
  case faults_pairwise =>
    refine hfaults.filterMap _ fun r r' h k hk k' hk' => ?_
    obtain ⟨rfl, d, hd⟩ := Round.exists_of_fault? hk
    obtain ⟨rfl, -⟩ := Round.exists_of_fault? hk'
    exact (h d hd).1
  case location_ne_at_end =>
    have hreports : (p.rounds.filterMap Round.report?).Pairwise fun d _ =>
        d.location ≠ " at end".toList :=
      hfaults.filterMap _ fun r r' h d hd _ _ => (h d hd).2
    generalize p.rounds.filterMap Round.report? = ds at hreports
    rcases List.eq_nil_or_concat ds with rfl | ⟨init, last, rfl⟩
    · exact fun d hd => absurd hd List.not_mem_nil
    · rw [List.concat_eq_append] at hreports ⊢
      rw [List.dropLast_concat]
      exact fun d hd => (List.pairwise_append.1 hreports).2.2 d hd last List.mem_cons_self
  case count_le =>
    have hcount := hrow.count_le hadvances
    rw [endIndex] at hcount
    omega
  case lines_pairwise =>
    intro hlines
    have hreports : p.rounds.Pairwise fun r r' => ∀ d d', r.report? = some d →
        r'.report? = some d' → d.line ≤ d'.line := by
      refine hfaults.imp_of_mem fun {r r'} hr hr' h d d' hd hd' => ?_
      obtain ⟨hlt, -⟩ := h d hd
      obtain ⟨⟨x, rfl⟩, -⟩ := (hadvances r hr).report?_eq hd
      obtain ⟨⟨x', rfl⟩, -⟩ := (hadvances r' hr').report?_eq hd'
      exact line_peek_le hlines hlt
    exact hreports.filterMap _ fun r r' h d hd d' hd' => h d d' hd hd'

/-- The first item has no semicolon, and the second one starts and fails at the word that stands
there. The last one fails at the end. -/
example :
    let rs := (start (scan "1 2 if ; 3".toList).tokens).rounds
    rs.map Round.start = [0, 2, 4] ∧ rs.filterMap Round.fault? = [1, 2, 5] := by
  decide +kernel

end Parser

end Lox
