import RecordFilter.Proofs.Binary64.Nearest
import Mathlib.Algebra.Order.Field.Rat
import Mathlib.Data.Nat.Cast.Order.Field
import Mathlib.Tactic.FieldSimp
import Mathlib.Tactic.Linarith
import Mathlib.Tactic.Positivity
import Mathlib.Tactic.Push

/-!
# Correct rounding

A decimal is read as the binary64 number nearest to it, and of two that are equally near as the
even one.  Infinity takes part in this as the power of two that would follow the greatest finite
number, which is how IEEE 754 places the border of overflow.

A quotient is rounded to a significand at the place where 53 bits of it are left.  Every number
that is not smaller than the least of that place is a whole number of steps there, so rounding to
a whole number finds the nearest of them; and smaller numbers lie further away than that least
one.

* `abs_roundHalfEven_sub_le` — the nearest whole number;
* `units_lt_units` — magnitudes are ordered as the numbers are;
* `roundsTo_nearestMagnitude`, `RoundsTo.unique` — the nearest number, and the only one;
* `RoundsTo.lt_infinity_iff` — which numbers are rounded to a finite one;
* `isReading_ofDigits` — what digits around a point are read as.
-/

namespace RecordFilter.Binary64

variable {num den m n s r : Nat} {q : ℚ}

/-! ## Whole numbers -/

/-- A quotient is its whole part and a part behind the point, which is compared with one half as
the remainder is with half the divisor. -/
theorem exists_part (num : Nat) (hden : 0 < den) :
    ∃ part : ℚ, (num : ℚ) / den = (num / den : ℕ) + part ∧ 0 ≤ part ∧ part < 1 ∧
      (2 * (num % den) < den ↔ part < 1 / 2) ∧ (den < 2 * (num % den) ↔ 1 / 2 < part) := by
  have hpos : (0 : ℚ) < den := Nat.cast_pos.mpr hden
  have hquotient : (num : ℚ) / den = (num / den : ℕ) + (num % den : ℕ) / den := by
    have hsum : ((den * (num / den) + num % den : ℕ) : ℚ) = num :=
      congrArg Nat.cast (Nat.div_add_mod num den)
    rw [← hsum]
    push_cast
    field_simp
  have hlt : ((num % den : ℕ) : ℚ) / den < 1 := by
    rw [div_lt_one hpos]
    exact Nat.cast_lt.mpr (Nat.mod_lt num hden)
  refine ⟨_, hquotient, by positivity, hlt, ?_, ?_⟩
  · rw [div_lt_div_iff₀ hpos two_pos, one_mul, mul_comm]
    exact_mod_cast Iff.rfl
  · rw [div_lt_div_iff₀ two_pos hpos, one_mul, mul_comm _ (2 : ℚ)]
    exact_mod_cast Iff.rfl

/-- Rounding moves a quotient by no more than one half, and by a half only to an even number. -/
theorem roundHalfEven_error (num : Nat) (hden : 0 < den) :
    |(roundHalfEven num den : ℚ) - num / den| ≤ 1 / 2 ∧
      (|(roundHalfEven num den : ℚ) - num / den| = 1 / 2 → roundHalfEven num den % 2 = 0) := by
  obtain ⟨part, hquotient, hnonneg, hlt, hless, hmore⟩ := exists_part num hden
  rw [hquotient]
  unfold roundHalfEven
  dsimp only
  split
  · next h =>
    have hlow := hless.mp h
    rw [sub_add_cancel_left, abs_neg, abs_of_nonneg hnonneg]
    exact ⟨hlow.le, fun htie => absurd htie hlow.ne⟩
  split
  · next h =>
    have hhigh := hmore.mp h
    rw [Nat.cast_add, Nat.cast_one, add_sub_add_left_eq_sub, abs_of_pos (by linarith)]
    exact ⟨by linarith, fun htie => by linarith⟩
  · next hnotLess hnotMore =>
    have hhalf : part = 1 / 2 :=
      le_antisymm (not_lt.mp (mt hmore.mpr hnotMore)) (not_lt.mp (mt hless.mpr hnotLess))
    rw [Nat.cast_add, add_sub_add_left_eq_sub]
    rcases Nat.mod_two_eq_zero_or_one (num / den) with heven | hodd
    · rw [heven, Nat.cast_zero, zero_sub, abs_neg, abs_of_nonneg hnonneg]
      exact ⟨by linarith, fun _ => heven⟩
    · rw [hodd, Nat.cast_one, abs_of_pos (by linarith)]
      exact ⟨by linarith, fun _ => by omega⟩

/-- No whole number is nearer to a quotient than the rounded one, and none but an even one is as
near as another. -/
theorem abs_roundHalfEven_sub_le (num t : Nat) (hden : 0 < den) :
    |(roundHalfEven num den : ℚ) - num / den| ≤ |(t : ℚ) - num / den| ∧
      (|(roundHalfEven num den : ℚ) - num / den| = |(t : ℚ) - num / den| →
        t = roundHalfEven num den ∨ roundHalfEven num den % 2 = 0) := by
  obtain ⟨herror, heven⟩ := roundHalfEven_error num hden
  by_cases ht : t = roundHalfEven num den
  · rw [ht]
    exact ⟨le_refl _, fun _ => .inl rfl⟩
  have hapart : (1 : ℚ) ≤ |(t : ℚ) - roundHalfEven num den| := by
    have hint : (t : ℤ) - roundHalfEven num den ≠ 0 := by omega
    exact_mod_cast Int.one_le_abs hint
  have htriangle := abs_sub_le (t : ℚ) (num / den) (roundHalfEven num den)
  rw [abs_sub_comm (num / den : ℚ)] at htriangle
  constructor
  · linarith
  · intro htie
    exact .inr (heven (by linarith))

/-! ## Units -/

/-- A significand of 53 bits and a scale make a number; one more than the greatest significand
carries into the scale. -/
theorem units_scaled (hlow : s = 0 ∨ fractions ≤ r) (hhigh : r ≤ 2 * fractions) :
    units (s * fractions + r) = r * Nat.pow 2 s := by
  rcases Nat.lt_or_eq_of_le hhigh with hlt | rfl
  · have hscale : scale (s * fractions + r) = s := by
      unfold scale fractions at *
      omega
    have hsignificand : significand (s * fractions + r) = r := by
      rw [significand, hscale, Nat.add_sub_cancel_left]
    rw [units, hscale, hsignificand]
  · have hscale : scale (s * fractions + 2 * fractions) = s + 1 := by
      unfold scale fractions at *
      omega
    have hsignificand : significand (s * fractions + 2 * fractions) = fractions := by
      rw [significand, hscale]
      unfold fractions
      omega
    rw [units, hscale, hsignificand, two_pow_add]
    show fractions * (Nat.pow 2 s * 2) = 2 * fractions * Nat.pow 2 s
    ac_rfl

/-- Numbers of a lower scale are smaller than all numbers of the scale. -/
theorem units_lt_of_scale_lt (h : scale n < s) : units n < fractions * Nat.pow 2 s := by
  have hhigh : significand n < 2 * fractions := by
    rcases Nat.eq_zero_or_pos (scale n) with hzero | hpos
    · obtain ⟨hself, hlt⟩ := significand_of_scale_eq_zero hzero
      rw [hself]
      exact hlt
    · exact (significand_bounds hpos).2
  obtain ⟨k, rfl⟩ := Nat.exists_eq_add_of_lt h
  calc units n < 2 * fractions * Nat.pow 2 (scale n) :=
        Nat.mul_lt_mul_of_pos_right hhigh (two_pow_pos _)
    _ ≤ 2 * fractions * Nat.pow 2 (scale n) * Nat.pow 2 k :=
        Nat.le_mul_of_pos_right _ (two_pow_pos k)
    _ = fractions * Nat.pow 2 (scale n + k + 1) := by
        rw [two_pow_add, two_pow_add]
        show _ = fractions * (Nat.pow 2 (scale n) * Nat.pow 2 k * 2)
        ac_rfl

/-- Numbers of the scale, and of every higher one, are multiples of its power of two. -/
theorem exists_units_eq (h : s ≤ scale n) : ∃ t, units n = t * Nat.pow 2 s := by
  obtain ⟨k, hk⟩ := Nat.exists_eq_add_of_le h
  refine ⟨significand n * Nat.pow 2 k, ?_⟩
  rw [units, hk, two_pow_add, Nat.mul_comm (Nat.pow 2 s), Nat.mul_assoc]

/-- **Greater magnitudes have more units.** -/
theorem units_lt_units (h : m < n) : units m < units n := by
  have hscale : scale m ≤ scale n := by
    unfold scale fractions
    omega
  rcases Nat.lt_or_eq_of_le hscale with hlt | heq
  · have hlow := (significand_bounds (Nat.zero_lt_of_lt hlt)).1
    exact (units_lt_of_scale_lt hlt).trans_le (Nat.mul_le_mul_right _ hlow)
  · have hm := scale_mul_add_significand m
    have hn := scale_mul_add_significand n
    rw [heq] at hm
    rw [units, units, heq]
    exact Nat.mul_lt_mul_of_pos_right (by omega) (two_pow_pos _)

/-- A greater magnitude is a greater number. -/
theorem units_strictMono : StrictMono units := fun _ _ => units_lt_units

/-! ## The nearest number -/

/-- The place at which a quotient of units is rounded: its whole part keeps 53 bits there, or
fewer if it is rounded at the last unit. -/
theorem shift_bounds (k : Nat) :
    k < 2 * fractions * Nat.pow 2 (k.log2 - 52) ∧
      (k.log2 - 52 = 0 ∨ fractions * Nat.pow 2 (k.log2 - 52) ≤ k) := by
  have hfractions : (fractions : Nat) = Nat.pow 2 52 := rfl
  constructor
  · calc k < Nat.pow 2 (k.log2 + 1) := Nat.lt_log2_self
      _ ≤ Nat.pow 2 (1 + 52 + (k.log2 - 52)) := Nat.pow_le_pow_right (by decide) (by omega)
      _ = 2 * fractions * Nat.pow 2 (k.log2 - 52) := by
          rw [two_pow_add, two_pow_add, hfractions]
  · rcases Nat.eq_zero_or_pos (k.log2 - 52) with hzero | hpos
    · exact .inl hzero
    · have hlog : 52 + (k.log2 - 52) = k.log2 := by omega
      refine .inr ?_
      rw [hfractions, ← two_pow_add, hlog]
      refine Nat.log2_self_le ?_
      rintro rfl
      exact absurd hpos (by decide)

/-- Rounding gives the quotient or the number above it. -/
theorem roundHalfEven_bounds (num den : Nat) :
    num / den ≤ roundHalfEven num den ∧ roundHalfEven num den ≤ num / den + 1 := by
  unfold roundHalfEven
  dsimp only
  split
  · omega
  split <;> omega

/-- The magnitude of the number nearest to `num / den` units, if there were no infinity. -/
def unboundedMagnitude (num den : Nat) : Nat :=
  ((num / den).log2 - 52) * fractions +
    roundHalfEven num (den * Nat.pow 2 ((num / den).log2 - 52))

/-- Rounded at its place, a quotient is a significand. -/
theorem units_unboundedMagnitude (num den : Nat) :
    units (unboundedMagnitude num den) =
      roundHalfEven num (den * Nat.pow 2 ((num / den).log2 - 52)) *
        Nat.pow 2 ((num / den).log2 - 52) := by
  obtain ⟨hhigh, hlow⟩ := shift_bounds (num / den)
  have hbounds := roundHalfEven_bounds num (den * Nat.pow 2 ((num / den).log2 - 52))
  rw [← Nat.div_div_eq_div_mul] at hbounds
  refine units_scaled ?_ ?_
  · refine hlow.imp_right fun hlow => ?_
    exact ((Nat.le_div_iff_mul_le (two_pow_pos _)).mpr hlow).trans hbounds.1
  · exact hbounds.2.trans ((Nat.div_lt_iff_lt_mul (two_pow_pos _)).mpr hhigh)

/-- Of the numbers that are not above a quotient, those below a scale lie further away than the
least one of the scale. -/
theorem abs_units_sub_of_scale_lt {x : ℚ} (h : scale n < s)
    (hx : ((fractions * Nat.pow 2 s : ℕ) : ℚ) ≤ x) :
    |((fractions * Nat.pow 2 s : ℕ) : ℚ) - x| < |(units n : ℚ) - x| := by
  have hless : (units n : ℚ) < (fractions * Nat.pow 2 s : ℕ) :=
    Nat.cast_lt.mpr (units_lt_of_scale_lt h)
  rw [abs_sub_comm, abs_of_nonneg (sub_nonneg.mpr hx), abs_sub_comm,
    abs_of_nonneg (sub_nonneg.mpr (hless.le.trans hx))]
  exact sub_lt_sub_left hless _

/-- No number is nearer to `num / den` units, and none but an even one is as near as another. -/
theorem abs_unboundedMagnitude_sub_le (num n : Nat) (hden : 0 < den) :
    |(units (unboundedMagnitude num den) : ℚ) - num / den| ≤ |(units n : ℚ) - num / den| ∧
      (|(units (unboundedMagnitude num den) : ℚ) - num / den| = |(units n : ℚ) - num / den| →
        n = unboundedMagnitude num den ∨ unboundedMagnitude num den % 2 = 0) := by
  have hunits := units_unboundedMagnitude num den
  have hparity : unboundedMagnitude num den % 2 =
      roundHalfEven num (den * Nat.pow 2 ((num / den).log2 - 52)) % 2 := by
    unfold unboundedMagnitude fractions
    omega
  obtain ⟨-, hlow⟩ := shift_bounds (num / den)
  obtain ⟨s, hs⟩ : ∃ s, s = (num / den).log2 - 52 := ⟨_, rfl⟩
  rw [← hs] at hunits hparity hlow
  have hstep : (0 : ℚ) < Nat.pow 2 s := Nat.cast_pos.mpr (two_pow_pos s)
  have hscaled : 0 < den * Nat.pow 2 s := Nat.mul_pos hden (two_pow_pos s)
  obtain ⟨y, hy⟩ : ∃ y : ℚ, y = num / (den * Nat.pow 2 s : ℕ) := ⟨_, rfl⟩
  have hx : (num : ℚ) / den = y * Nat.pow 2 s := by
    have hpos : (0 : ℚ) < den := Nat.cast_pos.mpr hden
    rw [hy]
    push_cast
    field_simp
  have hdistance : ∀ t : ℕ, |((t * Nat.pow 2 s : ℕ) : ℚ) - num / den| =
      |(t : ℚ) - y| * Nat.pow 2 s := by
    intro t
    rw [hx, Nat.cast_mul, ← sub_mul, abs_mul, abs_of_pos hstep]
  rw [hunits, hdistance]
  rcases Nat.lt_or_ge (scale n) s with hscale | hscale
  · -- Below the scale, the least number of the scale is nearer.
    have hbelow : fractions * Nat.pow 2 s ≤ num / den := by
      rcases hlow with hzero | hlow
      · omega
      · exact hlow
    have hleast : ((fractions * Nat.pow 2 s : ℕ) : ℚ) ≤ num / den :=
      (Nat.cast_le.mpr hbelow).trans Nat.cast_div_le
    have hnearer := (abs_roundHalfEven_sub_le num fractions hscaled).1
    rw [← hy] at hnearer
    have hstrict : |(roundHalfEven num (den * Nat.pow 2 s) : ℚ) - y| * Nat.pow 2 s <
        |(units n : ℚ) - num / den| := by
      calc |(roundHalfEven num (den * Nat.pow 2 s) : ℚ) - y| * Nat.pow 2 s
          ≤ |(fractions : ℚ) - y| * Nat.pow 2 s := by gcongr
        _ = |((fractions * Nat.pow 2 s : ℕ) : ℚ) - num / den| := (hdistance fractions).symm
        _ < |(units n : ℚ) - num / den| := abs_units_sub_of_scale_lt hscale hleast
    exact ⟨hstrict.le, fun h => absurd h hstrict.ne⟩
  · obtain ⟨t, ht⟩ := exists_units_eq hscale
    obtain ⟨hnearer, htie⟩ := abs_roundHalfEven_sub_le num t hscaled
    rw [← hy] at hnearer htie
    rw [ht, hdistance]
    refine ⟨mul_le_mul_of_nonneg_right hnearer hstep.le, fun h => ?_⟩
    rcases htie (mul_right_cancel₀ hstep.ne' h) with rfl | heven
    · exact .inl (units_strictMono.injective (ht.trans hunits.symm))
    · exact .inr (hparity.trans heven)

/-! ## Correct rounding -/

/-- The absolute value of the numbers with this magnitude.  Infinity counts as the number that
would follow the greatest finite one. -/
def amount (m : Nat) : ℚ := units m / unitsPerOne

/-- A number of absolute value `q` is rounded to the magnitude `m`: none is nearer, and one that
is as near as another is even. -/
structure RoundsTo (q : ℚ) (m : Nat) : Prop where
  le_infinity : m ≤ infinityMagnitude
  nearest : ∀ n ≤ infinityMagnitude, |amount m - q| ≤ |amount n - q|
  even : ∀ n ≤ infinityMagnitude, |amount m - q| = |amount n - q| → n = m ∨ m % 2 = 0

theorem unitsPerOne_pos : (0 : ℚ) < unitsPerOne := by
  obtain ⟨n, hn⟩ : ∃ n, 1074 = n := ⟨_, rfl⟩
  rw [unitsPerOne_eq hn]
  exact Nat.cast_pos.mpr (two_pow_pos n)

/-- A greater magnitude is a greater amount. -/
theorem amount_strictMono : StrictMono amount := by
  intro m n h
  exact div_lt_div_of_pos_right (Nat.cast_lt.mpr (units_lt_units h)) unitsPerOne_pos

/-- Distances are the same when counted in units. -/
theorem abs_amount_sub (m num den : Nat) :
    |amount m - num / den| =
      |(units m : ℚ) - (num * unitsPerOne : ℕ) / den| / unitsPerOne := by
  have hpos := unitsPerOne_pos
  have hunits : amount m - num / den =
      ((units m : ℚ) - (num * unitsPerOne : ℕ) / den) / unitsPerOne := by
    rw [amount]
    push_cast
    field_simp
  rw [hunits, abs_div, abs_of_pos hpos]

/-- **The nearest number is the number rounded to.** -/
theorem roundsTo_nearestMagnitude (num : Nat) (hden : 0 < den) :
    RoundsTo ((num : ℚ) / den) (nearestMagnitude num den) := by
  have hpos := unitsPerOne_pos
  obtain ⟨far, hfar⟩ : ∃ far, far = unboundedMagnitude (num * unitsPerOne) den := ⟨_, rfl⟩
  have hmin : nearestMagnitude num den = min infinityMagnitude far := by
    rw [hfar]
    rfl
  have hnearest : ∀ n, |amount far - num / den| ≤ |amount n - num / den| := by
    intro n
    rw [abs_amount_sub, abs_amount_sub, hfar]
    exact div_le_div_of_nonneg_right (abs_unboundedMagnitude_sub_le _ n hden).1 hpos.le
  rw [hmin]
  rcases Nat.lt_or_ge infinityMagnitude far with hinfinite | hfinite
  · -- What is nearest without infinity lies beyond it, and so does the quotient.
    rw [Nat.min_eq_left hinfinite.le]
    have hbeyond : amount infinityMagnitude < num / den := by
      by_contra hnot
      have hless := amount_strictMono hinfinite
      have hat := hnearest infinityMagnitude
      rw [abs_of_nonneg (by linarith), abs_of_nonneg (by linarith)] at hat
      linarith
    have hdistance : ∀ n ≤ infinityMagnitude, |amount n - num / den| = num / den - amount n := by
      intro n hn
      have hle := amount_strictMono.monotone hn
      rw [abs_sub_comm, abs_of_nonneg (by linarith)]
    refine ⟨le_refl _, fun n hn => ?_, fun n hn htie => ?_⟩
    · have hle := amount_strictMono.monotone hn
      rw [hdistance _ (le_refl _), hdistance n hn]
      linarith
    · rw [hdistance _ (le_refl _), hdistance n hn] at htie
      exact .inl (amount_strictMono.injective (by linarith))
  · rw [Nat.min_eq_right hfinite]
    refine ⟨hfinite, fun n _ => hnearest n, fun n _ htie => ?_⟩
    rw [abs_amount_sub, abs_amount_sub, hfar] at htie
    rw [hfar]
    exact (abs_unboundedMagnitude_sub_le _ n hden).2 ((div_left_inj' hpos.ne').mp htie)

/-- Two numbers that are equally near and both even have another between them, which is
nearer. -/
theorem RoundsTo.le (hm : RoundsTo q m) (hn : RoundsTo q n) : n ≤ m := by
  by_contra hnot
  have hlt : m < n := Nat.lt_of_not_le hnot
  have htie : |amount m - q| = |amount n - q| :=
    le_antisymm (hm.nearest n hn.le_infinity) (hn.nearest m hm.le_infinity)
  have hmeven : m % 2 = 0 := (hm.even n hn.le_infinity htie).resolve_left (by omega)
  have hneven : n % 2 = 0 := (hn.even m hm.le_infinity htie.symm).resolve_left (by omega)
  have hbelow : amount m < amount (m + 1) := amount_strictMono (by omega)
  have habove : amount (m + 1) < amount n := amount_strictMono (by omega)
  have hbetween := hm.nearest (m + 1) (by have := hn.le_infinity; omega)
  rcases abs_cases (amount m - q) with hdm | hdm <;>
    rcases abs_cases (amount n - q) with hdn | hdn <;>
    rcases abs_cases (amount (m + 1) - q) with hd | hd <;> linarith

/-- **A number is rounded to one magnitude only.** -/
theorem RoundsTo.unique (hm : RoundsTo q m) (hn : RoundsTo q n) : m = n :=
  Nat.le_antisymm (hn.le hm) (hm.le hn)

/-! ## Overflow -/

/-- A number that is not below one unit in the place of one, by its significand and scale. -/
theorem amount_scaled {k : Nat} (hlow : fractions ≤ r) (hhigh : r ≤ 2 * fractions) :
    amount ((1074 + k) * fractions + r) = r * 2 ^ k := by
  have hpos := unitsPerOne_pos
  obtain ⟨places, hplaces⟩ : ∃ places, 1074 = places := ⟨_, rfl⟩
  have hunits : units ((1074 + k) * fractions + r) = r * (unitsPerOne * 2 ^ k) := by
    rw [units_scaled (.inr hlow) hhigh, hplaces, two_pow_add, ← unitsPerOne_eq hplaces]
    rfl
  rw [amount, hunits]
  push_cast
  field_simp

/-- Infinity is rounded to as the power of two behind the greatest finite number. -/
theorem amount_infinity : amount infinityMagnitude = 2 ^ 1024 := by
  have hscaled : infinityMagnitude = (1074 + 972) * fractions + fractions := by decide
  have hfractions : ((fractions : ℕ) : ℚ) = 2 ^ 52 := by norm_num
  rw [hscaled, amount_scaled (le_refl fractions) (by decide), hfractions, ← pow_add]

/-- The greatest finite number. -/
theorem amount_greatest : amount (infinityMagnitude - 1) = 2 ^ 1024 - 2 ^ 971 := by
  have hscaled : infinityMagnitude - 1 = (1074 + 971) * fractions + (2 * fractions - 1) := by
    decide
  have hgreatest : ((2 * fractions - 1 : ℕ) : ℚ) = 2 ^ 53 - 1 := by norm_num
  rw [hscaled, amount_scaled (by decide) (by decide), hgreatest, sub_mul, ← pow_add, one_mul]

/-- **A number is rounded to infinity from half the way behind the greatest finite one on.** -/
theorem RoundsTo.lt_infinity_iff (h : RoundsTo q m) :
    m < infinityMagnitude ↔ q < 2 ^ 1024 - 2 ^ 970 := by
  have hinfinity := amount_infinity
  have hgreatest := amount_greatest
  rw [pow_succ' 2 970] at hgreatest
  have hpos : (0 : ℚ) < 2 ^ 970 := by positivity
  generalize (2 : ℚ) ^ 1024 = top at *
  generalize (2 : ℚ) ^ 970 = half at *
  constructor
  · intro hfinite
    by_contra hnot
    have hq : top - half ≤ q := not_lt.mp hnot
    have hle : amount m ≤ amount (infinityMagnitude - 1) :=
      amount_strictMono.monotone (by omega)
    have hnearest := h.nearest _ (le_refl infinityMagnitude)
    have htie := h.even _ (le_refl infinityMagnitude)
    rw [hinfinity] at hnearest htie
    have hlast : amount m = amount (infinityMagnitude - 1) := by
      rcases abs_cases (amount m - q) with hdm | hdm <;>
        rcases abs_cases (top - q) with hd | hd <;> linarith
    obtain rfl := amount_strictMono.injective hlast
    rw [hlast, hgreatest] at hnearest htie
    have hdistance : |top - 2 * half - q| = |top - q| := by
      rcases abs_cases (top - 2 * half - q) with hdm | hdm <;>
        rcases abs_cases (top - q) with hd | hd <;> linarith
    rcases htie hdistance with heq | heven
    · exact absurd heq (by decide)
    · exact absurd heven (by decide)
  · intro hless
    refine Nat.lt_of_le_of_ne h.le_infinity ?_
    rintro rfl
    have hnearest := h.nearest (infinityMagnitude - 1) (by decide)
    rw [hinfinity, hgreatest] at hnearest
    rcases abs_cases (top - q) with hdm | hdm <;>
      rcases abs_cases (top - 2 * half - q) with hd | hd <;> linarith

/-! ## Reading decimals -/

/-- The number `x` is what a decimal of absolute value `q` is read as, after a minus sign if
`negative`. -/
structure IsReading (negative : Bool) (q : ℚ) (x : Binary64) : Prop where
  sign : x.isNegative = negative
  magnitude : RoundsTo q x.magnitude

variable {negative : Bool}

/-- A sign and a magnitude that leaves the sign bit free are those of a number. -/
theorem sign_magnitude_ofMagnitude (negative : Bool) (hm : m < signWeight) :
    (ofMagnitude negative m).isNegative = negative ∧ (ofMagnitude negative m).magnitude = m := by
  have hbits : (ofMagnitude negative m).bits.toNat = m + if negative then signWeight else 0 := by
    rw [ofMagnitude, UInt64.toNat_ofNat']
    refine Nat.mod_eq_of_lt ?_
    unfold signWeight at *
    split <;> omega
  rw [isNegative, magnitude, hbits]
  cases negative with
  | true =>
      rw [if_pos rfl, Nat.add_mod_right, Nat.mod_eq_of_lt hm]
      exact ⟨decide_eq_true (Nat.le_add_left _ _), rfl⟩
  | false =>
      rw [if_neg (by decide), Nat.add_zero, Nat.mod_eq_of_lt hm]
      exact ⟨decide_eq_false (Nat.not_le.mpr hm), rfl⟩

/-- **A decimal has one reading only.** -/
theorem IsReading.unique {x y : Binary64} (hx : IsReading negative q x)
    (hy : IsReading negative q y) : x = y := by
  rw [← ofMagnitude_magnitude x, ← ofMagnitude_magnitude y, hx.sign, hy.sign,
    hx.magnitude.unique hy.magnitude]

/-- Which decimals are read as finite numbers. -/
theorem IsReading.isFinite_iff {x : Binary64} (hx : IsReading negative q x) :
    x.isFinite = true ↔ q < 2 ^ 1024 - 2 ^ 970 := by
  rw [← hx.magnitude.lt_infinity_iff, isFinite, decide_eq_true_eq]

/-- **What digits around a point are read as.** -/
theorem isReading_ofDigits (negative : Bool) (whole fraction : List UInt8) :
    IsReading negative
      ((Byte.natOfDigits (whole ++ fraction) : ℚ) / (10 ^ fraction.length : ℕ))
      (ofDigits negative whole fraction) := by
  have hrounds := roundsTo_nearestMagnitude (Byte.natOfDigits (whole ++ fraction))
    (Nat.pow_pos (n := fraction.length) (Nat.succ_pos 9))
  have hbits : nearestMagnitude (Byte.natOfDigits (whole ++ fraction))
      (Nat.pow 10 fraction.length) < signWeight :=
    hrounds.le_infinity.trans_lt (by decide)
  obtain ⟨hsign, hmagnitude⟩ := sign_magnitude_ofMagnitude negative hbits
  refine ⟨hsign, ?_⟩
  rw [ofDigits, hmagnitude]
  exact hrounds

end RecordFilter.Binary64
