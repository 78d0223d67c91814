import Lox.Proofs.Number.Rounding
/-!
# What is written for a number

A decimal is laid out as a numeral with the same quotient: the zeros put in
front of the fraction and those left out at its end change nothing. So the
shortest numeral of a finite value is read as that value, and its two runs
are digits.
-/


namespace Lox

namespace Number

/-! ## Laying a decimal out -/

/-- A text is what is left of it without the zeros at its end, and those zeros. -/
theorem exists_trailing_zeros (t : Text) :
    ∃ z, t = (t.reverse.dropWhile (· == '0')).reverse ++ List.replicate z '0' := by
  refine ⟨(t.reverse.takeWhile (· == '0')).length, ?_⟩
  have hz : t.reverse.takeWhile (· == '0') =
      List.replicate (t.reverse.takeWhile (· == '0')).length '0' := by
    refine List.eq_replicate_iff.2 ⟨rfl, fun c hc => ?_⟩
    simpa using List.all_eq_true.1 List.all_takeWhile c hc
  rw [← List.reverse_replicate, ← hz, ← List.reverse_append, List.takeWhile_append_dropWhile,
    List.reverse_reverse]

theorem fraction_of_mod_eq_zero {digits places : Nat} (h : digits % 10 ^ places = 0) :
    (layOut digits places).fraction = [] := by
  simp [layOut, h]

theorem fraction_of_mod_ne_zero {digits places : Nat} (h : digits % 10 ^ places ≠ 0) :
    (layOut digits places).fraction =
      ((List.replicate (places - (Nat.toDigits 10 (digits % 10 ^ places)).length) '0' ++
        Nat.toDigits 10 (digits % 10 ^ places)).reverse.dropWhile (· == '0')).reverse := by
  simp [layOut, h]

/-- With zeros at its end the fraction takes all the places, and says what stands behind the
point. -/
theorem exists_padded_fraction (digits places : Nat) :
    ∃ z, (layOut digits places).fraction.length + z = places ∧
      Nat.ofDigitChars 10 ((layOut digits places).fraction ++ List.replicate z '0') 0 =
        digits % 10 ^ places := by
  by_cases h : digits % 10 ^ places = 0
  · refine ⟨places, ?_, ?_⟩
    · simp [fraction_of_mod_eq_zero h]
    · rw [fraction_of_mod_eq_zero h, List.nil_append, Nat.ofDigitChars_replicate_zero,
        Nat.mul_zero, h]
  · have hlt : digits % 10 ^ places < 10 ^ places := Nat.mod_lt _ (Nat.pow_pos (Nat.succ_pos 9))
    -- a remainder has no more digits than there are places, so zeros in front fill them up
    have hplaces : 0 < places := by
      rcases Nat.eq_zero_or_pos places with rfl | hpos
      · rw [Nat.pow_zero, Nat.mod_one] at h
        exact absurd rfl h
      · exact hpos
    have hlen := (Nat.length_toDigits_le_iff (by decide) hplaces).2 hlt
    obtain ⟨z, hz⟩ := exists_trailing_zeros
      (List.replicate (places - (Nat.toDigits 10 (digits % 10 ^ places)).length) '0' ++
        Nat.toDigits 10 (digits % 10 ^ places))
    rw [← fraction_of_mod_ne_zero h] at hz
    refine ⟨z, ?_, ?_⟩
    · have hlength := congrArg List.length hz
      simp only [List.length_append, List.length_replicate] at hlength
      omega
    · rw [← hz, Nat.ofDigitChars_append, Nat.ofDigitChars_replicate_zero, Nat.mul_zero,
        Nat.ofDigitChars_ten_toDigits]

/-- **The numeral has the quotient of the decimal**: with the zeros that are left out its digits are
those of the decimal. -/
theorem exists_digits_layOut (digits places : Nat) :
    ∃ z, (layOut digits places).fraction.length + z = places ∧
      (layOut digits places).digits * 10 ^ z = digits := by
  obtain ⟨z, hlen, hbehind⟩ := exists_padded_fraction digits places
  refine ⟨z, hlen, ?_⟩
  have hpadded : (layOut digits places).digits * 10 ^ z =
      Nat.ofDigitChars 10 ((layOut digits places).whole ++
        ((layOut digits places).fraction ++ List.replicate z '0')) 0 := by
    rw [← List.append_assoc, Nat.ofDigitChars_append, Nat.ofDigitChars_replicate_zero,
      Nat.mul_comm]
    rfl
  rw [hpadded, Nat.ofDigitChars_append, Nat.ofDigitChars_eq_ofDigitChars_zero, hbehind,
    List.length_append, List.length_replicate, hlen]
  have hwhole : Nat.ofDigitChars 10 (layOut digits places).whole 0 = digits / 10 ^ places :=
    Nat.ofDigitChars_ten_toDigits
  rw [hwhole, Nat.div_add_mod]

/-- The numeral is read as the value nearest to the decimal. -/
theorem value_layOut (digits places : Nat) :
    (layOut digits places).value = ofQuotient digits (10 ^ places) := by
  obtain ⟨z, hlen, hdigits⟩ := exists_digits_layOut digits places
  unfold Numeral.value ofQuotient
  have hscaled := nearest_mul ((layOut digits places).digits * unitsPerOne)
    (10 ^ (layOut digits places).fraction.length) (Nat.pow_pos (n := z) (Nat.succ_pos 9))
  rw [Nat.mul_right_comm, hdigits, ← Nat.pow_add, hlen] at hscaled
  rw [Nat.pow_eq, hscaled]

/-! ## The shortest numeral -/

/-- **What is written for a finite value is read as that value.** -/
theorem value_shortest {m : Nat} (h : m < infinity) : (shortest m).value = unsigned m := by
  have hread := readsBack_shortestDigits (readsBack_expansion h)
    ((Nat.toDigits 10 (expansion m).1).length - 1)
  rw [ReadsBack] at hread
  unfold shortest
  rw [value_layOut, ofQuotient, hread]

theorem whole_shortest_ne_nil (m : Nat) : (shortest m).whole ≠ [] := Nat.toDigits_ne_nil

theorem isDigit_of_mem_whole {m : Nat} {c : Char} (h : c ∈ (shortest m).whole) :
    c.isDigit = true :=
  Nat.isDigit_of_mem_toDigits (by decide) (by decide) h

theorem isDigit_of_mem_fraction_layOut {digits places : Nat} {c : Char}
    (h : c ∈ (layOut digits places).fraction) : c.isDigit = true := by
  by_cases hz : digits % 10 ^ places = 0
  · rw [fraction_of_mod_eq_zero hz] at h
    cases h
  · rw [fraction_of_mod_ne_zero hz, List.mem_reverse] at h
    have hmem := List.mem_reverse.1 ((List.dropWhile_suffix _).subset h)
    rcases List.mem_append.1 hmem with hmem | hmem
    · rw [(List.mem_replicate.1 hmem).2]
      decide
    · exact Nat.isDigit_of_mem_toDigits (by decide) (by decide) hmem

theorem isDigit_of_mem_fraction {m : Nat} {c : Char} (h : c ∈ (shortest m).fraction) :
    c.isDigit = true :=
  isDigit_of_mem_fraction_layOut h

end Number

end Lox
