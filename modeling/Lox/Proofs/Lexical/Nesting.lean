import Lox.Lexeme.Comment
/-!
# Nested block comments

What closes a block comment, said by recursion on the nesting instead of a
count of the comments still open. `Tail t` says that `t` is the text behind
an opener up to and with the closer that belongs to it. The counting reader
finds such a text whenever there is one, and it is the only one in front of
what is left.
-/


namespace Lox

namespace Comment

/-- **The tails of a block comment**, read from left to right without overlap. -/
inductive Tail : Text → Prop
  | close : Tail ['*', '/']
  /-- An opener begins a comment of its own, and the tail goes on behind it. -/
  | nest {t u : Text} : Tail t → Tail u → Tail ('/' :: '*' :: (t ++ u))
  | skip {c : Char} {t : Text} :
      ¬ ['/', '*'] <+: c :: t → ¬ ['*', '/'] <+: c :: t → Tail t → Tail (c :: t)

/-- `Tails inner t`: one tail after another closes a comment and the `inner` ones inside it. -/
inductive Tails : Nat → Text → Prop
  | last {t : Text} : Tail t → Tails 0 t
  | more {inner : Nat} {t u : Text} : Tail t → Tails inner u → Tails (inner + 1) (t ++ u)

theorem Tail.ne_nil {t : Text} (h : Tail t) : t ≠ [] := by
  cases h <;> simp

/-! ## Every tail is found -/

/-- Past a character that neither opens nor closes, the count goes on. -/
theorem closingLength?_skip {inner : Nat} {c : Char} {t : Text} (ho : ¬ ['/', '*'] <+: c :: t)
    (hc : ¬ ['*', '/'] <+: c :: t) :
    closingLength? inner (c :: t) = (closingLength? inner t).map (· + 1) := by
  have hopen : ∀ u, c = '/' → t = '*' :: u → False := by
    rintro u rfl rfl
    exact ho ⟨u, rfl⟩
  have hclose : ∀ u, c = '*' → t = '/' :: u → False := by
    rintro u rfl rfl
    exact hc ⟨u, rfl⟩
  rw [closingLength?]
  · exact hopen
  · exact fun u _ => hclose u
  · exact fun _ u _ => hclose u

/-- A tail that something follows is skipped like the tail alone. -/
theorem Tail.not_prefix_append {c d e : Char} {t : Text} (ht : Tail t) (rest : Text)
    (h : ¬ [d, e] <+: c :: t) : ¬ [d, e] <+: c :: (t ++ rest) := by
  intro hp
  obtain ⟨x, u, rfl⟩ := List.exists_cons_of_ne_nil ht.ne_nil
  simp only [List.cons_append, List.cons_prefix_cons, List.nil_prefix, and_true] at h hp
  exact h hp

/-- **The count follows a tail**: it closes one comment and takes as many characters as the tail
has. -/
theorem closingLength?_append {t : Text} (h : Tail t) :
    ∀ rest, closingLength? 0 (t ++ rest) = some t.length ∧
      ∀ inner, closingLength? (inner + 1) (t ++ rest) =
        (closingLength? inner rest).map (· + t.length) := by
  induction h with
  | close => exact fun rest => ⟨rfl, fun inner => rfl⟩
  | @nest t u _ _ iht ihu =>
    intro rest
    -- the opener is counted, the inner tail takes the count back, and the outer one goes on
    have hstep : ∀ inner, closingLength? inner ('/' :: '*' :: (t ++ u) ++ rest) =
        (closingLength? inner (u ++ rest)).map (· + (t.length + 2)) := fun inner => by
      have hlen : ∀ n, n + t.length + 2 = n + (t.length + 2) := fun n => by omega
      simp [closingLength?, (iht _).2, Option.map_map, Function.comp_def, hlen]
    refine ⟨?_, fun inner => ?_⟩
    · simp only [hstep, (ihu rest).1, Option.map_some, List.length_cons, List.length_append]
      congr 1
      omega
    · simp only [hstep, (ihu rest).2, Option.map_map, Function.comp_def, List.length_cons,
        List.length_append]
      congr 1
      funext n
      omega
  | @skip c t ho hc ht ih =>
    intro rest
    have ho' := ht.not_prefix_append rest ho
    have hc' := ht.not_prefix_append rest hc
    refine ⟨?_, fun inner => ?_⟩
    · rw [List.cons_append, closingLength?_skip ho' hc', (ih rest).1]
      rfl
    · rw [List.cons_append, closingLength?_skip ho' hc', (ih rest).2, Option.map_map]
      rfl

/-! ## What is found is a tail -/

theorem Tails.nest {inner : Nat} {t : Text} (h : Tails (inner + 1) t) :
    Tails inner ('/' :: '*' :: t) := by
  cases h with
  | @more _ t u ht hu =>
    cases hu with
    | last hu => exact .last (.nest ht hu)
    | @more inner v w hv hw =>
      have := Tails.more (.nest ht hv) hw
      simpa using this

theorem Tails.skip {inner : Nat} {c : Char} {t : Text} (h : Tails inner t)
    (ho : ¬ ['/', '*'] <+: c :: t) (hc : ¬ ['*', '/'] <+: c :: t) : Tails inner (c :: t) := by
  cases h with
  | last ht => exact .last (.skip ho hc ht)
  | @more inner t u ht hu =>
    refine .more (.skip (fun hp => ho ?_) (fun hp => hc ?_) ht) hu
    · exact hp.trans (List.prefix_append (c :: t) u)
    · exact hp.trans (List.prefix_append (c :: t) u)

/-- **The count stops behind tails**: as many of them as comments were open. -/
theorem exists_tails_of_closingLength? {inner n : Nat} {t : Text}
    (h : closingLength? inner t = some n) :
    ∃ u rest, t = u ++ rest ∧ u.length = n ∧ Tails inner u := by
  fun_induction closingLength? inner t generalizing n with
  | case1 => cases h
  | case2 inner t ih =>
    obtain ⟨m, hm, rfl⟩ := Option.map_eq_some_iff.1 h
    obtain ⟨u, rest, rfl, rfl, hu⟩ := ih hm
    exact ⟨_, rest, rfl, rfl, hu.nest⟩
  | case3 t =>
    cases h
    exact ⟨['*', '/'], t, rfl, rfl, .last .close⟩
  | case4 inner t ih =>
    obtain ⟨m, hm, rfl⟩ := Option.map_eq_some_iff.1 h
    obtain ⟨u, rest, rfl, rfl, hu⟩ := ih hm
    exact ⟨_, rest, rfl, by simp, .more .close hu⟩
  | case5 inner c t ho hc hc' ih =>
    obtain ⟨m, hm, rfl⟩ := Option.map_eq_some_iff.1 h
    obtain ⟨u, rest, rfl, rfl, hu⟩ := ih hm
    -- the branches above this one say that neither mark stands here
    refine ⟨c :: u, rest, rfl, rfl, hu.skip ?_ ?_⟩
    · intro hp
      obtain ⟨rfl, v, hv⟩ := List.cons_prefix_cons.1 hp
      exact ho (v ++ rest) rfl (by rw [← hv]; rfl)
    · intro hp
      obtain ⟨rfl, v, hv⟩ := List.cons_prefix_cons.1 hp
      cases inner with
      | zero => exact hc (v ++ rest) rfl rfl (by rw [← hv]; rfl)
      | succ inner => exact hc' inner (v ++ rest) rfl rfl (by rw [← hv]; rfl)

/-- **A block comment is closed exactly where a tail ends.** -/
theorem closingLength?_eq_some_iff {t : Text} {n : Nat} :
    closingLength? 0 t = some n ↔ ∃ u, Tail u ∧ u <+: t ∧ u.length = n := by
  constructor
  · intro h
    obtain ⟨u, rest, rfl, hn, hu⟩ := exists_tails_of_closingLength? h
    cases hu with
    | last hu => exact ⟨u, hu, List.prefix_append _ _, hn⟩
  · rintro ⟨u, hu, ⟨rest, rfl⟩, rfl⟩
    exact (closingLength?_append hu rest).1

/-- A comment is never closed exactly if no tail stands behind its opener. -/
theorem closingLength?_eq_none_iff {t : Text} :
    closingLength? 0 t = none ↔ ∀ u, Tail u → ¬ u <+: t := by
  constructor
  · intro h u hu hp
    rw [closingLength?_eq_some_iff.2 ⟨u, hu, hp, rfl⟩] at h
    cases h
  · intro h
    cases hn : closingLength? 0 t with
    | none => rfl
    | some n =>
      obtain ⟨u, hu, hp, -⟩ := closingLength?_eq_some_iff.1 hn
      exact absurd hp (h u hu)

end Comment

end Lox
