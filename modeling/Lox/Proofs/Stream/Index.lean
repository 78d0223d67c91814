import Lox.Token.Stream
import Lox.Expr.Sequence
/-!
# Streams inside a token list

A parser that has passed the first tokens of a list is at the stream that
starts there: it sees the tokens up to the next end marker, and takes the
line of the end from that marker, or from the last token of the whole list.
-/


namespace Lox

namespace TokenStream

/-- The stream of a token list from its token number `k` on. -/
def fromIndex (ts : List Token) (k : Nat) : TokenStream where
  ahead := (ts.drop k).takeWhile fun t => !t.isEof
  endLine :=
    match (ts.drop k).find? Token.isEof with
    | some marker => marker.line
    | none => (ts.getLast?.map Token.line).getD 1

/-- A new parser is at the first token. -/
theorem fromIndex_zero (ts : List Token) : fromIndex ts 0 = ofTokens ts := rfl

/-- Passing tokens that are no end markers changes nothing behind them. -/
theorem takeWhile_find?_drop {ts : List Token} {n : Nat}
    (h : n ≤ (ts.takeWhile fun t => !t.isEof).length) :
    (ts.drop n).takeWhile (fun t => !t.isEof) = (ts.takeWhile fun t => !t.isEof).drop n ∧
      (ts.drop n).find? Token.isEof = ts.find? Token.isEof := by
  induction n generalizing ts with
  | zero => exact ⟨rfl, rfl⟩
  | succ n ih =>
    cases ts with
    | nil => exact absurd h (by simp)
    | cons t ts =>
      cases ht : t.isEof with
      | true => simp [ht] at h
      | false =>
        simp only [List.takeWhile_cons, ht, Bool.not_false, if_true, List.length_cons] at h
        simpa [ht] using ih (Nat.le_of_succ_le_succ h)

/-- The stream `n` tokens further on. -/
theorem fromIndex_add {ts : List Token} {k n : Nat} (h : n ≤ (fromIndex ts k).ahead.length) :
    fromIndex ts (k + n) =
      (fromIndex ts k).withAhead ((fromIndex ts k).ahead.drop n) := by
  obtain ⟨hahead, hend⟩ := takeWhile_find?_drop h
  rw [List.drop_drop] at hahead hend
  simp only [fromIndex, withAhead, hahead, hend]

/-- The tokens end on the line of the next end marker. -/
theorem endLine_fromIndex_of_find? {ts : List Token} {k : Nat} {marker : Token}
    (h : (ts.drop k).find? Token.isEof = some marker) : (fromIndex ts k).endLine = marker.line := by
  rw [fromIndex, h]

/-- Without one they end on the line of the last token. -/
theorem endLine_fromIndex_of_forall {ts : List Token} {k : Nat}
    (h : ∀ t ∈ ts.drop k, t.isEof = false) :
    (fromIndex ts k).endLine = (ts.getLast?.map Token.line).getD 1 := by
  have hnone : (ts.drop k).find? Token.isEof = none :=
    List.find?_eq_none.2 fun t ht => by simp [h t ht]
  rw [fromIndex, hnone]

/-- No token ahead is an end marker. -/
theorem not_isEof_of_mem_ahead {ts : List Token} {k : Nat} {t : Token}
    (h : t ∈ (fromIndex ts k).ahead) : t.isEof = false := by
  simpa using List.all_eq_true.1 List.all_takeWhile t h

/-- Tokens without an end marker are ahead, and behind them what is ahead without them. -/
theorem ahead_ofTokens_append {c : List Token} (hc : ∀ t ∈ c, t.isEof = false) (ts : List Token) :
    (ofTokens (c ++ ts)).ahead = c ++ (ofTokens ts).ahead :=
  List.takeWhile_append_of_pos fun t ht => by rw [hc t ht, Bool.not_false]

theorem ahead_ofTokens_eq_self {c : List Token} (hc : ∀ t ∈ c, t.isEof = false) :
    (ofTokens c).ahead = c := by
  have h := ahead_ofTokens_append hc []
  simpa [ofTokens] using h

/-- Tokens without an end marker, closed by one. -/
theorem ofTokens_append_eof {c : List Token} (hc : ∀ t ∈ c, t.isEof = false) (line : Nat) :
    ofTokens (c ++ [Token.eof line]) = ⟨c, line⟩ := by
  have hahead : (ofTokens (c ++ [Token.eof line])).ahead = c := by
    rw [ahead_ofTokens_append hc]
    exact List.append_nil c
  have hend : endLineOf (c ++ [Token.eof line]) = line := by
    rw [endLineOf, List.find?_append, List.find?_eq_none.2 fun t ht => by simp [hc t ht]]
    rfl
  exact congr (congrArg TokenStream.mk hahead) hend

/-- The stream behind `c`, which has no end marker. -/
theorem fromIndex_length {c : List Token} (hc : ∀ t ∈ c, t.isEof = false) (ts : List Token) :
    fromIndex (c ++ ts) c.length = (ofTokens (c ++ ts)).withAhead (ofTokens ts).ahead := by
  have hahead := ahead_ofTokens_append hc ts
  have hle : c.length ≤ (fromIndex (c ++ ts) 0).ahead.length := by
    rw [fromIndex_zero, hahead, List.length_append]
    exact Nat.le_add_right _ _
  have hadd := fromIndex_add hle
  rwa [Nat.zero_add, fromIndex_zero, hahead, List.drop_left] at hadd

theorem withAhead_injective {s : TokenStream} {a b : List Token}
    (h : s.withAhead a = s.withAhead b) : a = b :=
  congrArg TokenStream.ahead h

end TokenStream

end Lox
