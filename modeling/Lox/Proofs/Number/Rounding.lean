import Lox.Number.Shortest
import Mathlib.Algebra.Ring.Nat
/-!
# Rounding and exact values

Rounding goes by the quotient alone, so a fraction may be reduced or expanded
before it is rounded, and it leaves an exact value as it is: the value of
magnitude `m` is `units m` units, and what is nearest to those is `m` again.
Any decimal that equals a value therefore reads back as that value, and so
does the numeral that is written for it.
-/


namespace Lox

namespace Number

/-! ## Fractions -/

theorem roundToEven_mul (num den : Nat) {k : Nat} (hk : 0 < k) :
    roundToEven (num * k) (den * k) = roundToEven num den := by
  have hlt : ∀ a b : Nat, a * k < b * k ↔ a < b := fun a b => Nat.mul_lt_mul_right hk
  simp only [roundToEven, Nat.mul_div_mul_right _ _ hk, Nat.mul_mod_mul_right, ← Nat.mul_assoc, hlt]

/-- A whole quotient needs no rounding. -/
theorem roundToEven_exact (q : Nat) {den : Nat} (h : 0 < den) :
    roundToEven (q * den) den = q := by
  simp [roundToEven, Nat.mul_div_cancel _ h, h]

theorem spacingLog_mul (num den : Nat) {k : Nat} (hk : 0 < k) :
    spacingLog (num * k) (den * k) = spacingLog num den := by
  rw [spacingLog, spacingLog, Nat.mul_div_mul_right _ _ hk]

theorem nearest_eq (num den : Nat) :
    nearest num den =
      min infinity (spacingLog num den * binade +
        roundToEven num (den * 2 ^ spacingLog num den)) := rfl

/-- **The quotient alone is rounded**, however it is written as a fraction. -/
theorem nearest_mul (num den : Nat) {k : Nat} (hk : 0 < k) :
    nearest (num * k) (den * k) = nearest num den := by
  rw [nearest_eq, nearest_eq, spacingLog_mul num den hk, Nat.mul_right_comm,
    roundToEven_mul num _ hk]

/-! ## Exact values -/

/-- The significand of the value of magnitude `m`: the units it would have on the scale of the least
binade. -/
def significand (m : Nat) : Nat := if m < binade then m else binade + m % binade

/-- The base-two logarithm of the spacing, in units, of the values in the binade of `m`. -/
def scale (m : Nat) : Nat := m / binade - 1

/-- How many units the value of magnitude `m` is. -/
def units (m : Nat) : Nat := significand m * 2 ^ scale m

/-- In the least binade, and below it, magnitudes count units. -/
theorem units_of_lt {m : Nat} (h : m < binade) : units m = m := by
  simp [units, significand, scale, h, Nat.div_eq_of_lt h]

theorem scale_mul_binade_add {m : Nat} (h : binade ≤ m) :
    scale m * binade + significand m = m := by
  have hpos : 0 < binade := by decide
  have hq : 1 ≤ m / binade := (Nat.one_le_div_iff hpos).2 h
  have hm := Nat.div_add_mod m binade
  rw [scale, significand, if_neg (Nat.not_lt.2 h), Nat.sub_mul, Nat.one_mul]
  have hle : binade ≤ m / binade * binade := Nat.le_mul_of_pos_left _ hq
  rw [Nat.mul_comm] at hm
  omega

/-- Above the least binade the spacing around a value is that of its own binade. -/
theorem spacingLog_units {m : Nat} (h : binade ≤ m) : spacingLog (units m) 1 = scale m := by
  -- the significand has 53 bits, so the units have 53 and as many more as the scale says
  have hsig : 2 ^ 52 ≤ significand m ∧ significand m < 2 ^ 53 := by
    have hr : m % binade < binade := Nat.mod_lt _ (by decide)
    rw [significand, if_neg (Nat.not_lt.2 h)]
    rw [binade, Nat.pow_eq] at hr
    rw [binade, Nat.pow_eq]
    omega
  have hpow : 0 < 2 ^ scale m := Nat.two_pow_pos _
  have hlog : (units m).log2 = 52 + scale m := by
    have hne : units m ≠ 0 := Nat.mul_ne_zero (by omega) (Nat.ne_of_gt hpow)
    rw [Nat.log2_eq_iff hne]
    constructor
    · rw [Nat.pow_add]
      exact Nat.mul_le_mul_right _ hsig.1
    · rw [show 52 + scale m + 1 = 53 + scale m by omega, Nat.pow_add]
      exact Nat.mul_lt_mul_of_pos_right hsig.2 hpow
  rw [spacingLog, Nat.div_one, hlog]
  omega

/-- **An exact value is its own nearest value.** -/
theorem nearest_units {m : Nat} (h : m < infinity) : nearest (units m) 1 = m := by
  rw [nearest_eq]
  -- in the least binade the spacing is one unit, in every other one it is that of the value
  by_cases hm : m < binade
  · have hlog : m.log2 - 52 = 0 := by
      by_cases hz : m = 0
      · rw [hz, Nat.log2_zero]
      · have hlt := (Nat.log2_lt hz).2 hm
        omega
    have hs : spacingLog m 1 = 0 := by rw [spacingLog, Nat.div_one, hlog]
    rw [units_of_lt hm, hs, Nat.zero_mul, Nat.zero_add, Nat.pow_zero]
    have hround := roundToEven_exact m Nat.one_pos
    rw [Nat.mul_one] at hround
    rw [hround, Nat.min_eq_right (Nat.le_of_lt h)]
  · have hle := Nat.not_lt.1 hm
    rw [spacingLog_units hle, Nat.one_mul]
    simp only [units]
    rw [roundToEven_exact _ (Nat.two_pow_pos _), scale_mul_binade_add hle,
      Nat.min_eq_right (Nat.le_of_lt h)]

/-! ## Decimals that read back -/

/-- The value of magnitude `m` is nearest to the decimal with these digits, `places` of them behind
the point. -/
def ReadsBack (m digits places : Nat) : Prop := nearest (digits * unitsPerOne) (10 ^ places) = m

theorem readsBack_iff {m digits places : Nat} :
    readsBack m digits places = true ↔ ReadsBack m digits places := by
  simp only [readsBack, ReadsBack, decide_eq_true_eq, Nat.pow_eq]

theorem pow_split {k s : Nat} (h : s ≤ k) : 2 ^ k = 2 ^ (k - s) * 2 ^ s := by
  rw [← Nat.pow_add, Nat.sub_add_cancel h]

/-- **The expansion is exact**: its digits, shifted, are the units of the value. -/
theorem expansion_exact (m : Nat) :
    (expansion m).1 * unitsPerOne = units m * 10 ^ (expansion m).2 := by
  unfold expansion unitsPerOne units
  -- how many units there are to one does not matter
  generalize 1074 = k
  simp only [Nat.pow_eq]
  rw [← significand, ← scale]
  split
  · rename_i h
    have ht : 10 ^ (k - scale m) = 5 ^ (k - scale m) * 2 ^ (k - scale m) := Nat.mul_pow 5 2 _
    rw [pow_split (Nat.le_of_lt h), ht]
    simp only [Nat.mul_assoc, Nat.mul_comm, Nat.mul_left_comm]
  · rename_i h
    rw [pow_split (Nat.not_lt.1 h), Nat.pow_zero, Nat.mul_one, Nat.mul_assoc]

theorem readsBack_expansion {m : Nat} (h : m < infinity) :
    ReadsBack m (expansion m).1 (expansion m).2 := by
  have hscaled := nearest_mul (units m) 1 (Nat.pow_pos (n := (expansion m).2) (Nat.succ_pos 9))
  rw [Nat.one_mul] at hscaled
  rw [ReadsBack, expansion_exact, hscaled, nearest_units h]

theorem readsBack_of_candidate? {m places d d' : Nat} (h : candidate? m places d = some d') :
    ReadsBack m d' places := by
  unfold candidate? at h
  split at h
  · rename_i hread
    rw [← Option.some.inj h]
    exact readsBack_iff.1 hread
  · cases h

/-- What is found on a grid reads back. -/
theorem readsBack_of_onGrid? {m digits places step d : Nat}
    (h : onGrid? m digits places step = some d) : ReadsBack m d places := by
  have hd : ∃ d', candidate? m places d' = some d := by
    unfold onGrid? at h
    dsimp only at h
    split at h <;>
      rw [Option.orElse_eq_orElse, Option.orElse_eq_or, Option.or_eq_some_iff] at h <;>
      exact h.elim (fun h => ⟨_, h⟩) fun h => ⟨_, h.2⟩
  obtain ⟨d', hd'⟩ := hd
  exact readsBack_of_candidate? hd'

/-- The digits to write are all the digits, or are found on some grid. -/
theorem shortestDigits_eq_or (m digits places spare : Nat) :
    shortestDigits m digits places spare = digits ∨
      ∃ step, onGrid? m digits places step = some (shortestDigits m digits places spare) := by
  induction spare with
  | zero => exact .inl rfl
  | succ spare ih =>
    rw [shortestDigits]
    cases hgrid : onGrid? m digits places (10 ^ (spare + 1)) with
    | some d => exact .inr ⟨_, hgrid⟩
    | none => exact ih

/-- **The digits to write read back** if all the digits do. -/
theorem readsBack_shortestDigits {m digits places : Nat} (h : ReadsBack m digits places)
    (spare : Nat) : ReadsBack m (shortestDigits m digits places spare) places := by
  rcases shortestDigits_eq_or m digits places spare with hall | ⟨step, hgrid⟩
  · rwa [hall]
  · exact readsBack_of_onGrid? hgrid

end Number

end Lox
