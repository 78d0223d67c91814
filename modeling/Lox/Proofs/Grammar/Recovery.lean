import Lox.Proofs.Grammar.Sequence
import Lox.Proofs.Grammar.Stopping
import Lox.Proofs.Stream.Index
import Lox.Reporting
/-!
# Recovery between the items of a sequence

Tokens that end with a semicolon are read the same whatever stands behind
them: no expression passes the semicolon, so an item that fails is stuck in
front of it or sooner, and parsing goes on behind it or sooner. So the items
of two such lists in a row are those of the one and then those of the other.
A list with one semicolon, at its end, and no word that starts a statement is
one item, whether it succeeds or fails.
-/


namespace Lox

namespace Grammar

/-- Whether `ts` ends with a semicolon. -/
def EndsItem (ts : List Token) : Prop := ∃ t ∈ ts.getLast?, t.data = .symbol .semicolon

theorem endsItem_singleton {t : Token} : EndsItem [t] ↔ t.data = .symbol .semicolon := by
  simp [EndsItem]

namespace EndsItem

theorem ne_nil {ts : List Token} (h : EndsItem ts) : ts ≠ [] := by
  rintro rfl
  obtain ⟨t, ht, -⟩ := h
  cases ht

/-- What is left of the tokens ends with the same semicolon. -/
theorem of_append {c ts : List Token} (h : EndsItem (c ++ ts)) (hne : ts ≠ []) : EndsItem ts := by
  rwa [EndsItem, List.getLast?_append, List.getLast?_eq_some_getLast hne, Option.some_or,
    ← List.getLast?_eq_some_getLast hne] at h

/-- No expression begins with all of the tokens. -/
theorem ne_nil_of_begins {c ts : List Token} (h : EndsItem (c ++ ts)) (hc : Begins .comma c) :
    ts ≠ [] := by
  rintro rfl
  rw [List.append_nil] at h
  obtain ⟨t, ht, hsemi⟩ := h
  obtain ⟨w, e, hder⟩ := hc
  have hterm := hder.isTerminal t (List.mem_append_left w (List.mem_of_getLast? ht))
  have hnot := hterm.not_semicolon
  rw [Token.isSymbol_iff.2 hsemi] at hnot
  cases hnot

end EndsItem

/-! ## Reading one item -/

/-- **An item is read the same whatever stands behind the last semicolon.** It is stuck in front of
that semicolon or sooner. -/
theorem readTerminated_append {ts : List Token} (h : EndsItem ts) (b : List Token) :
    (∃ e c t rest, (readTerminated ts).result = .ok (e, rest) ∧
      (readTerminated (ts ++ b)).result = .ok (e, rest ++ b) ∧
      t.data = .symbol .semicolon ∧ ts = c ++ t :: rest) ∨
    ∃ x c rest, (readTerminated ts).result = .error (x, rest) ∧
      (readTerminated (ts ++ b)).result = .error (x, rest ++ b) ∧
      rest ≠ [] ∧ ts = c ++ rest := by
  cases hr : (readTerminated ts).result with
  | ok done =>
    obtain ⟨e, rest⟩ := done
    obtain ⟨c, t, rfl, hder, ht⟩ := result_readTerminated_iff_derives.1 hr
    refine .inl ⟨e, c, t, rest, rfl, ?_, ht, rfl⟩
    exact result_readTerminated_iff_derives.2 ⟨c, t, by simp, hder, ht⟩
  | error stuck =>
    obtain ⟨x, rest⟩ := stuck
    refine .inr ?_
    rcases result_readTerminated_error.1 hr with hread | ⟨rfl, hnot, e, hread⟩
    · -- the expression is stuck, and what it has passed has no semicolon
      obtain ⟨c, hc, hstuck⟩ := stuck_of_descent hread
      have hpasses := hread.passes hc
      have hne : rest ≠ [] := (hc ▸ h).ne_nil_of_begins hstuck.begun
      refine ⟨x, c, rest, rfl, ?_, hne, hc⟩
      rw [hc, List.append_assoc]
      exact result_readTerminated_error.2
        (.inl (hpasses (rest ++ b) (head?_append_of_ne_nil hne b)))
    · -- the expression is read, and another token stands behind it
      obtain ⟨c, hc, hder, -⟩ := sound_of_descent hread
      have hpasses := hread.passes hc
      have hne : rest ≠ [] :=
        (hc ▸ h).ne_nil_of_begins ⟨[], e, by rwa [List.append_nil]⟩
      have hhead : (rest ++ b).head? = rest.head? := head?_append_of_ne_nil hne b
      refine ⟨.semicolon, c, rest, rfl, ?_, hne, hc⟩
      rw [hc, List.append_assoc]
      refine result_readTerminated_error.2 (.inr ⟨rfl, ?_, e, hpasses (rest ++ b) hhead⟩)
      rw [hhead]
      exact hnot

/-! ## Going on behind an item -/

/-- Apart from these words no token starts a statement. -/
theorem not_startsStatement {t : Token}
    (h : ∀ k ∈ [Keyword.classWord, .funWord, .varWord, .forWord, .ifWord, .whileWord,
      .printWord, .returnWord], t.data ≠ .keyword k) : t.startsStatement = false := by
  rw [Token.startsStatement]
  split
  · rename_i k hk
    cases k <;> first | rfl | exact absurd hk (h _ (by decide))
  · rfl

/-- Parsing goes on behind some of the tokens. -/
theorem resume_suffix (passed : Token) (ts : List Token) : resume passed ts <:+ ts := by
  induction ts generalizing passed with
  | nil => exact List.suffix_refl _
  | cons t ts ih =>
    rw [resume]
    split
    · exact List.suffix_refl _
    · exact (ih t).trans (List.suffix_cons t ts)

/-- **Parsing goes on behind the last semicolon or sooner**, so at the same place whatever stands
behind it. -/
theorem resume_append {passed : Token} {ts : List Token} (h : EndsItem (passed :: ts))
    (b : List Token) : resume passed (ts ++ b) = resume passed ts ++ b := by
  induction ts generalizing passed with
  | nil =>
    have hpassed := Token.isSymbol_iff.2 (endsItem_singleton.1 h)
    cases b with
    | nil => rfl
    | cons u b => simp [resume, hpassed]
  | cons t ts ih =>
    rw [List.cons_append, resume, resume]
    split
    · rfl
    · exact ih (h.of_append (c := [passed]) (List.cons_ne_nil t ts))

/-- Without another semicolon and a word that starts a statement, parsing goes on at the end. -/
theorem resume_eq_nil {passed : Token} {ts : List Token}
    (hsemi : ∀ t ∈ (passed :: ts).dropLast, t.isSymbol .semicolon = false)
    (hstart : ∀ t ∈ ts, t.startsStatement = false) : resume passed ts = [] := by
  induction ts generalizing passed with
  | nil => rfl
  | cons t ts ih =>
    rw [List.dropLast_cons_of_ne_nil (List.cons_ne_nil t ts)] at hsemi
    obtain ⟨hpassed, hsemi⟩ := List.forall_mem_cons.1 hsemi
    obtain ⟨ht, hstart⟩ := List.forall_mem_cons.1 hstart
    rw [resume, hpassed, ht]
    exact ih hsemi hstart

end Grammar

/-! ## The items of two lists in a row -/

namespace TokenStream

open Grammar

/-- An item that fails at the token `t` gives it up. -/
theorem items_of_result_error_cons {a us : List Token} {t : Token} {x : Expected} {m : Nat}
    (hne : a ≠ []) (h : (readTerminated a).result = .error (x, t :: us)) :
    items ⟨a, m⟩ = .error (.atToken x t) :: items ⟨resume t us, m⟩ :=
  items_of_result_error (s := ⟨a, m⟩) hne h

/-- **The items of tokens that end with a semicolon stand for themselves**: those of what follows
come behind them, and neither list changes the other's. -/
theorem items_append {a : List Token} (h : a ≠ [] → EndsItem a) (b : List Token) (m n : Nat) :
    items ⟨a ++ b, n⟩ = items ⟨a, m⟩ ++ items ⟨b, n⟩ := by
  -- by the length of `a`: every item passes some of it, whether it succeeds or fails
  induction hlen : a.length using Nat.strongRecOn generalizing a with
  | ind l ih =>
    by_cases hne : a = []
    · subst hne
      rw [items_of_nil (s := ⟨[], m⟩) rfl]
      rfl
    have hne' : a ++ b ≠ [] := fun hnil => hne (List.append_eq_nil_iff.1 hnil).1
    rcases readTerminated_append (h hne) b with
      ⟨e, c, t, rest, hr, hr', ht, ha⟩ | ⟨x, c, rest, hr, hr', hrest, ha⟩
    · have hlt : rest.length < l := by
        rw [← hlen, ha, List.length_append, List.length_cons]
        omega
      have hends : rest ≠ [] → EndsItem rest := by
        intro hrest
        have hafter : EndsItem (t :: rest) := (ha ▸ h hne).of_append (List.cons_ne_nil t rest)
        exact hafter.of_append (c := [t]) hrest
      have hitems : items ⟨a, m⟩ = .ok e :: items ⟨rest, m⟩ :=
        items_eq_ok_cons_iff.2 ⟨rest, hr, rfl⟩
      have hitems' : items ⟨a ++ b, n⟩ = .ok e :: items ⟨rest ++ b, n⟩ :=
        items_eq_ok_cons_iff.2 ⟨rest ++ b, hr', rfl⟩
      rw [hitems, hitems', ih _ hlt hends rfl, List.cons_append]
    · obtain ⟨t, us, rfl⟩ := List.exists_cons_of_ne_nil hrest
      have hafter : EndsItem (t :: us) := (ha ▸ h hne).of_append hrest
      have hlt : (resume t us).length < l := by
        have hle := length_resume_le t us
        rw [← hlen, ha, List.length_append, List.length_cons]
        omega
      have hends : resume t us ≠ [] → EndsItem (resume t us) := by
        intro hnext
        obtain ⟨d, hd⟩ := resume_suffix t us
        rw [← hd] at hafter
        exact hafter.of_append (c := t :: d) hnext
      have hitems : items ⟨a, m⟩ = .error (.atToken x t) :: items ⟨resume t us, m⟩ :=
        items_of_result_error_cons hne hr
      have hitems' : items ⟨a ++ b, n⟩ = .error (.atToken x t) :: items ⟨resume t us ++ b, n⟩ := by
        rw [← resume_append hafter]
        exact items_of_result_error_cons hne' hr'
      rw [hitems, hitems', ih _ hlt hends rfl, List.cons_append]

/-- **A list with one semicolon, at its end, is one item**, if no word in it starts a statement. -/
theorem items_eq_singleton {a : List Token} (h : EndsItem a)
    (hsemi : ∀ t ∈ a.dropLast, t.isSymbol .semicolon = false)
    (hstart : ∀ t ∈ a, t.startsStatement = false) (m : Nat) : ∃ i, items ⟨a, m⟩ = [i] := by
  rcases readTerminated_append h [] with
    ⟨e, c, t, rest, hr, -, ht, ha⟩ | ⟨x, c, rest, hr, -, hrest, ha⟩
  · cases rest with
    | nil => exact ⟨.ok e, items_eq_ok_cons_iff.2 ⟨[], hr, items_of_nil rfl⟩⟩
    | cons u rest =>
      -- the semicolon behind the expression is not the last token
      have hmem : t ∈ a.dropLast := by
        rw [ha, List.dropLast_append_of_ne_nil (List.cons_ne_nil t (u :: rest)),
          List.dropLast_cons_of_ne_nil (List.cons_ne_nil u rest)]
        exact List.mem_append_right c List.mem_cons_self
      have hnot := hsemi t hmem
      rw [Token.isSymbol_iff.2 ht] at hnot
      cases hnot
  · obtain ⟨t, us, rfl⟩ := List.exists_cons_of_ne_nil hrest
    have hnil : resume t us = [] := by
      refine resume_eq_nil (fun u hu => hsemi u ?_) fun u hu => hstart u ?_
      · rw [ha, List.dropLast_append_of_ne_nil hrest]
        exact List.mem_append_right c hu
      · rw [ha]
        exact List.mem_append_right c (List.mem_cons_of_mem t hu)
    have hitems : items ⟨a, m⟩ = .error (.atToken x t) :: items ⟨resume t us, m⟩ :=
      items_of_result_error_cons h.ne_nil hr
    rw [hnil, items_of_nil (s := ⟨[], m⟩) rfl] at hitems
    exact ⟨_, hitems⟩

/-- All of a list without an end marker is ahead. -/
theorem ofTokens_eq_self {a : List Token} (ha : ∀ t ∈ a, t.isEof = false) :
    ofTokens a = ⟨a, endLineOf a⟩ := by
  show TokenStream.mk (ofTokens a).ahead (endLineOf a) = _
  rw [ahead_ofTokens_eq_self ha]

/-- The end of a list is that of its last part. -/
theorem endLineOf_append {a b : List Token} (ha : ∀ t ∈ a, t.isEof = false) (hb : b ≠ []) :
    endLineOf (a ++ b) = endLineOf b := by
  have hnone : a.find? Token.isEof = none := List.find?_eq_none.2 fun t ht => by simp [ha t ht]
  rw [endLineOf, endLineOf, List.find?_append, hnone, Option.none_or, List.getLast?_append,
    List.getLast?_eq_some_getLast hb, Option.some_or]

/-- So it is for the items of a token list. -/
theorem items_ofTokens_append {a : List Token} (h : EndsItem a) (ha : ∀ t ∈ a, t.isEof = false)
    (b : List Token) :
    (ofTokens (a ++ b)).items = (ofTokens a).items ++ (ofTokens b).items := by
  have hwhole : ofTokens (a ++ b) = ⟨a ++ (ofTokens b).ahead, endLineOf (a ++ b)⟩ := by
    rw [← ahead_ofTokens_append ha]
    rfl
  have hlast : items ⟨(ofTokens b).ahead, endLineOf (a ++ b)⟩ = (ofTokens b).items := by
    by_cases hb : b = []
    · subst hb
      rw [items_of_nil rfl, items_of_nil rfl]
    · rw [endLineOf_append ha hb]
      rfl
  rw [hwhole, ofTokens_eq_self ha, items_append (fun _ => h), hlast]

end TokenStream

namespace Grammar

open TokenStream

/-- What is reported and parsed of two lists in a row, the first of which ends an item. -/
theorem run_parseSequence_append {a : List Token} (h : EndsItem a) (ha : ∀ t ∈ a, t.isEof = false)
    (b : List Token) (sink : Diagnostics) :
    let run := fun ts => (Reporting.parseSequence (ofTokens ts)).run
    (run (a ++ b) sink).1.1 = (run a []).1.1 ++ (run b []).1.1 ∧
      (run (a ++ b) sink).2 = sink ++ ((run a []).2 ++ (run b []).2) := by
  intro run
  have hitems := items_ofTokens_append h ha b
  simp only [run, Reporting.run_parseSequence, expressions, errors]
  refine ⟨?_, ?_⟩
  · rw [hitems, List.filterMap_append]
  · rw [hitems, List.filterMap_append, List.map_append, List.nil_append, List.nil_append]

/-- **Errors stay with the item that they are in.** Let `a` be tokens without an end marker of which
the last one is a semicolon, and `b` any tokens. The sequence of both gives the expressions of `a`
and then those of `b`, and reports what is reported of `a` and then what is reported of `b`. If the
semicolon is the only one of `a`, and no word of `a` starts a statement, then `a` alone gives one
expression and no report, or no expression and one report. -/
theorem parseSequence_append {c : List Token} {last : Token}
    (hlast : last.data = .symbol .semicolon) (hmarker : ∀ t ∈ c, t.isEof = false)
    (b : List Token) (sink : Diagnostics) :
    let run := fun ts => (Reporting.parseSequence (ofTokens ts)).run
    let a := c ++ [last]
    (run (a ++ b) sink).1.1 = (run a []).1.1 ++ (run b []).1.1 ∧
      (run (a ++ b) sink).2 = sink ++ ((run a []).2 ++ (run b []).2) ∧
      ((∀ t ∈ c, t.data ≠ .symbol .semicolon) →
        (∀ t ∈ c, ∀ k ∈ [Keyword.classWord, .funWord, .varWord, .forWord, .ifWord, .whileWord,
          .printWord, .returnWord], t.data ≠ .keyword k) →
        (∃ e, (run a []).1.1 = [e] ∧ (run a []).2 = []) ∨
          ∃ d, (run a []).1.1 = [] ∧ (run a []).2 = [d]) := by
  intro run a
  have hends : EndsItem a := ⟨last, by simp [a], hlast⟩
  have ha : ∀ t ∈ a, t.isEof = false := by
    refine List.forall_mem_append.2 ⟨hmarker, List.forall_mem_singleton.2 ?_⟩
    simp [Token.isEof, hlast]
  obtain ⟨htrees, hreports⟩ := run_parseSequence_append hends ha b sink
  refine ⟨htrees, hreports, fun hsemi hstart => ?_⟩
  obtain ⟨i, hi⟩ : ∃ i, (ofTokens a).items = [i] := by
    rw [ofTokens_eq_self ha]
    refine items_eq_singleton hends ?_ ?_ _
    · intro t ht
      rw [List.dropLast_concat] at ht
      simpa [Token.isSymbol] using hsemi t ht
    · refine List.forall_mem_append.2 ⟨fun t ht => not_startsStatement (hstart t ht),
        List.forall_mem_singleton.2 (not_startsStatement fun k _ hk => ?_)⟩
      cases hlast.symm.trans hk
  simp only [run, Reporting.run_parseSequence, expressions, errors, hi]
  cases i with
  | ok e => exact .inl ⟨e, rfl, rfl⟩
  | error f => exact .inr ⟨f.diagnostic, rfl, rfl⟩

/-- In `( nil ; nil ;` the first item is not closed, and the second one is read. -/
theorem parseSequence_append_unclosed :
    let semicolon : Token := ⟨.symbol .semicolon, [';'], 1⟩
    let word : Token := ⟨.keyword .nilWord, "nil".toList, 1⟩
    let c : List Token := [⟨.symbol .leftParen, ['('], 1⟩, word]
    let b : List Token := [word, semicolon]
    let run := fun ts => (Reporting.parseSequence (ofTokens ts)).run
    let a := c ++ [semicolon]
    (semicolon.data = .symbol .semicolon ∧ ∀ t ∈ c, t.isEof = false) ∧
      (run (a ++ b) []).1.1 = (run a []).1.1 ++ (run b []).1.1 ∧
      (run (a ++ b) []).2 = [] ++ ((run a []).2 ++ (run b []).2) ∧
      ((∃ e, (run a []).1.1 = [e] ∧ (run a []).2 = []) ∨
        ∃ d, (run a []).1.1 = [] ∧ (run a []).2 = [d]) := by
  intro semicolon word c b run a
  have hlast : semicolon.data = .symbol .semicolon := rfl
  have hmarker : ∀ t ∈ c, t.isEof = false := by decide
  obtain ⟨htrees, hreports, hitem⟩ := parseSequence_append hlast hmarker b []
  exact ⟨⟨hlast, hmarker⟩, htrees, hreports, hitem (by decide) (by decide)⟩

end Grammar

end Lox
