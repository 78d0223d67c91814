import Lox.Text
import Mathlib.Data.List.Infix
/-!
# Matching parentheses

Read from left to right, a closing parenthesis is matched with the last opening
one that has no partner so far, and passed over if there is none. A text is
balanced if nothing is passed over and nothing is left open: no prefix of it
closes more than it opens, and the whole closes what it opens.
-/


namespace Lox

namespace Shunting

/-- Takes in the character `c` at the place `i`. `waiting` are the places of the opening parentheses
that have no partner so far, last one first. -/
def matchNext (waiting : List Nat) : Char × Nat → List Nat
  | (c, i) => if c = '(' then i :: waiting else if c = ')' then waiting.tail else waiting

/-- **The places of the opening parentheses without a partner**, last one first. -/
def unmatched (t : Text) : List Nat := t.zipIdx.foldl matchNext []

/-- **A balanced text** closes each parenthesis that it opens, and no other one. -/
structure Balanced (t : Text) : Prop where
  prefix_le : ∀ u, u <+: t → u.count ')' ≤ u.count '('
  count_eq : t.count ')' = t.count '('

theorem unmatched_concat (t : Text) (c : Char) :
    unmatched (t ++ [c]) = matchNext (unmatched t) (c, t.length) := by
  rw [unmatched, List.zipIdx_append, List.foldl_append, Nat.zero_add]
  rfl

/-- Where nothing is passed over, each opening parenthesis is closed or left without a partner. -/
theorem length_unmatched {t : Text} (h : ∀ u, u <+: t → u.count ')' ≤ u.count '(') :
    (unmatched t).length + t.count ')' = t.count '(' := by
  induction t using List.reverseRecOn with
  | nil => rfl
  | append_singleton t c ih =>
    have hle := h (t ++ [c]) (List.prefix_refl _)
    have hlen := ih fun u hu => h u (hu.trans (List.prefix_append t [c]))
    rw [unmatched_concat, matchNext]
    simp only [List.count_append, List.count_singleton, beq_iff_eq] at hle ⊢
    by_cases hopen : c = '('
    · subst hopen
      simp only [if_true, if_neg (show ¬ '(' = ')' by decide), List.length_cons] at hle ⊢
      omega
    by_cases hclose : c = ')'
    · subst hclose
      simp only [if_true, if_neg (show ¬ ')' = '(' by decide), List.length_tail] at hle ⊢
      omega
    · simp only [if_neg hopen, if_neg hclose]
      omega

namespace Balanced

variable {t u : Text}

/-- A balanced text leaves nothing open. -/
theorem unmatched_eq_nil (h : Balanced t) : unmatched t = [] := by
  have hlen := length_unmatched h.prefix_le
  have hcount := h.count_eq
  exact List.length_eq_zero_iff.1 (by omega)

theorem of_not_mem (hopen : '(' ∉ t) (hclose : ')' ∉ t) : Balanced t where
  prefix_le u hu := by
    rw [List.count_eq_zero_of_not_mem fun hmem => hclose (hu.subset hmem)]
    exact Nat.zero_le _
  count_eq := by
    rw [List.count_eq_zero_of_not_mem hclose, List.count_eq_zero_of_not_mem hopen]

theorem append (ht : Balanced t) (hu : Balanced u) : Balanced (t ++ u) where
  prefix_le v hv := by
    rcases List.prefix_or_prefix_of_prefix hv (List.prefix_append t u) with hvt | ⟨w, rfl⟩
    · exact ht.prefix_le v hvt
    · have hw := hu.prefix_le w ((List.prefix_append_right_inj t).1 hv)
      have hcount := ht.count_eq
      rw [List.count_append, List.count_append]
      omega
  count_eq := by
    rw [List.count_append, List.count_append, ht.count_eq, hu.count_eq]

theorem cons {c : Char} (hopen : c ≠ '(') (hclose : c ≠ ')') (ht : Balanced t) :
    Balanced (c :: t) :=
  append (t := [c]) (.of_not_mem (fun hmem => hopen (List.mem_singleton.1 hmem).symm)
    fun hmem => hclose (List.mem_singleton.1 hmem).symm) ht

/-- **Parentheses around a balanced text** keep it balanced. -/
theorem group (ht : Balanced t) : Balanced ('(' :: t ++ [')']) where
  prefix_le v hv := by
    rcases List.prefix_concat_iff.1 hv with rfl | hv
    · have hcount := ht.count_eq
      simp [hcount]
    · rcases List.prefix_cons_iff.1 hv with rfl | ⟨w, rfl, hw⟩
      · exact Nat.le_refl _
      · have hle := ht.prefix_le w hw
        simp
        omega
  count_eq := by
    have hcount := ht.count_eq
    simp [hcount]

end Balanced

end Shunting

end Lox
