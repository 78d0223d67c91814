import Lox.Text
/-!
# Line ends

A line may end with a line feed alone or with a carriage return in front of
it. `unifyLineEnds` leaves every line end with the line feed alone. It goes
through a text part by part, unless the parts meet within a line end, and
touches no other character; in particular the lines stay.
-/


namespace Lox

namespace Text

/-- The text without the carriage returns that stand in front of a line feed: each line end of the
two characters is replaced by the line feed alone. -/
def unifyLineEnds : Text → Text
  | [] => []
  | c :: t => if c = '\r' ∧ t.head? = some '\n' then unifyLineEnds t else c :: unifyLineEnds t

@[simp] theorem unifyLineEnds_nil : unifyLineEnds [] = [] := rfl

/-- Any character but a carriage return stays. -/
@[simp] theorem unifyLineEnds_cons {c : Char} (hc : c ≠ '\r') (t : Text) :
    unifyLineEnds (c :: t) = c :: unifyLineEnds t :=
  if_neg fun h => hc h.1

/-- The carriage return of a line end goes. -/
theorem unifyLineEnds_return {t : Text} (h : t.head? = some '\n') :
    unifyLineEnds ('\r' :: t) = unifyLineEnds t :=
  if_pos ⟨rfl, h⟩

/-- A character alone is no line end of two characters. -/
@[simp] theorem unifyLineEnds_singleton (c : Char) : unifyLineEnds [c] = [c] :=
  if_neg fun h => Option.some_ne_none _ h.2.symm

/-- **The parts of a text can be taken one by one**, if they do not meet within a line end. -/
theorem unifyLineEnds_append {s t : Text} (h : s.getLast? = some '\r' → t.head? ≠ some '\n') :
    unifyLineEnds (s ++ t) = unifyLineEnds s ++ unifyLineEnds t := by
  induction s with
  | nil => rfl
  | cons c s ih =>
    cases s with
    | nil =>
      have hreturn : ¬ (c = '\r' ∧ t.head? = some '\n') := fun ⟨hc, ht⟩ => h (by rw [hc]; rfl) ht
      rw [List.singleton_append, unifyLineEnds, if_neg hreturn, unifyLineEnds_singleton,
        List.singleton_append]
    | cons d s =>
      have ih := ih fun hlast => h (by rwa [List.getLast?_cons_cons])
      have hhead : (d :: s ++ t).head? = (d :: s).head? := rfl
      rw [List.cons_append, unifyLineEnds, unifyLineEnds, hhead, ih]
      by_cases hc : c = '\r' ∧ (d :: s).head? = some '\n'
      · rw [if_pos hc, if_pos hc]
      · rw [if_neg hc, if_neg hc, List.cons_append]

/-- A text without a line feed stays as it is. -/
theorem unifyLineEnds_eq_self {t : Text} (h : '\n' ∉ t) : unifyLineEnds t = t := by
  induction t with
  | nil => rfl
  | cons c t ih =>
    have hfeed : t.head? ≠ some '\n' := fun ht => h (List.mem_cons_of_mem c (List.mem_of_head? ht))
    rw [unifyLineEnds, if_neg fun hc => hfeed hc.2, ih fun hmem => h (List.mem_cons_of_mem c hmem)]

/-- Nothing is added. -/
theorem unifyLineEnds_sublist (t : Text) : List.Sublist (unifyLineEnds t) t := by
  induction t with
  | nil => exact List.Sublist.refl _
  | cons c t ih =>
    rw [unifyLineEnds]
    split
    · exact ih.cons c
    · exact ih.cons_cons c

/-- **The lines stay**: no line feed is left out. -/
theorem lineBreaks_unifyLineEnds (t : Text) : lineBreaks (unifyLineEnds t) = lineBreaks t := by
  induction t with
  | nil => rfl
  | cons c t ih =>
    rw [lineBreaks, lineBreaks] at ih ⊢
    rw [unifyLineEnds]
    split
    · rename_i hc
      rw [ih, List.count_cons_of_ne (by rw [hc.1]; decide)]
    · rw [List.count_cons, List.count_cons, ih]

/-- The first character stays, or it was the carriage return of a line end. -/
theorem head?_unifyLineEnds (t : Text) :
    (unifyLineEnds t).head? = t.head? ∨
      t.head? = some '\r' ∧ (unifyLineEnds t).head? = some '\n' := by
  cases t with
  | nil => exact .inl rfl
  | cons c t =>
    rw [unifyLineEnds]
    split
    · rename_i hc
      obtain ⟨rfl, ht⟩ := hc
      obtain ⟨u, rfl⟩ := List.head?_eq_some_iff.1 ht
      exact .inr ⟨rfl, by rw [unifyLineEnds_cons (by decide)]; rfl⟩
    · exact .inl rfl

theorem unifyLineEnds_ne_nil {t : Text} (h : t ≠ []) : unifyLineEnds t ≠ [] := by
  intro hnil
  rcases head?_unifyLineEnds t with hsame | ⟨-, hfeed⟩
  · rw [hnil, List.head?_nil, eq_comm, List.head?_eq_none_iff] at hsame
    exact h hsame
  · rw [hnil] at hfeed
    cases hfeed

/-- What holds of a line feed, and of the first character if there is one, still holds of it. -/
theorem forall_mem_head?_unifyLineEnds {P : Char → Prop} {t : Text} (hfeed : P '\n')
    (h : ∀ c ∈ t.head?, P c) : ∀ c ∈ (unifyLineEnds t).head?, P c := by
  rcases head?_unifyLineEnds t with hsame | ⟨-, hhead⟩
  · rwa [hsame]
  · intro c hc
    rw [hhead] at hc
    cases Option.mem_some_iff.1 hc
    exact hfeed

/-- A first character that is neither a line feed nor a carriage return was the first one before. -/
theorem head?_unifyLineEnds_eq_some_iff {c : Char} (hfeed : c ≠ '\n') (hreturn : c ≠ '\r')
    (t : Text) : (unifyLineEnds t).head? = some c ↔ t.head? = some c := by
  rcases head?_unifyLineEnds t with hsame | ⟨hhead, hhead'⟩
  · rw [hsame]
  · rw [hhead, hhead', Option.some.injEq, Option.some.injEq]
    exact ⟨fun h => absurd h.symm hfeed, fun h => absurd h.symm hreturn⟩

end Text

end Lox
