import RecordFilter.Binary64.Shortest

/-!
# What is written for a number is nearest to it

The nearest number depends on the quotient alone, and a finite number is the nearest to its
own places.  So the digits that are written for a number are read as that number, whether
the search finds fewer of them or not.

* `nearestMagnitude_congr` — equal quotients have the same nearest number;
* `nearestMagnitude_writtenPlaces` — what is written reads back.
-/

namespace RecordFilter.Binary64

variable {num den m : Nat}

/-! ## Rounding -/

/-- A common factor makes no difference to rounding. -/
theorem roundHalfEven_mul_right (num den : Nat) {k : Nat} (hk : 0 < k) :
    roundHalfEven (num * k) (den * k) = roundHalfEven num den := by
  have hless : ∀ a b : Nat, a * k < b * k ↔ a < b := fun a b => Nat.mul_lt_mul_right hk
  unfold roundHalfEven
  dsimp only
  rw [Nat.mul_div_mul_right _ _ hk, Nat.mul_mod_mul_right, ← Nat.mul_assoc]
  simp only [hless]

/-- Whole numbers are rounded to themselves. -/
theorem roundHalfEven_mul_self (n : Nat) (hden : 0 < den) :
    roundHalfEven (n * den) den = n := by
  unfold roundHalfEven
  dsimp only
  rw [Nat.mul_mod_left, if_pos hden, Nat.mul_div_cancel n hden]

/-- A common factor makes no difference to the nearest number. -/
theorem nearestMagnitude_mul_right (num den : Nat) {k : Nat} (hk : 0 < k) :
    nearestMagnitude (num * k) (den * k) = nearestMagnitude num den := by
  unfold nearestMagnitude
  dsimp only
  rw [Nat.mul_right_comm num k, Nat.mul_div_mul_right _ _ hk, Nat.mul_right_comm den k,
    roundHalfEven_mul_right _ _ hk]

/-- **Equal quotients have the same nearest number.** -/
theorem nearestMagnitude_congr {num' den' : Nat} (hden : 0 < den) (hden' : 0 < den')
    (h : num * den' = num' * den) : nearestMagnitude num den = nearestMagnitude num' den' := by
  rw [← nearestMagnitude_mul_right num den hden', h, Nat.mul_comm den,
    nearestMagnitude_mul_right num' den' hden]

/-! ## Finite numbers -/

/-- A sum of exponents is a product of powers, for the powers that are computed with. -/
theorem two_pow_add (a b : Nat) : Nat.pow 2 (a + b) = Nat.pow 2 a * Nat.pow 2 b :=
  Nat.pow_add 2 a b

theorem two_pow_pos (n : Nat) : 0 < Nat.pow 2 n := Nat.two_pow_pos n

/-- One is `2 ^ 1074` of the least units. -/
theorem unitsPerOne_eq {n : Nat} (h : 1074 = n) : unitsPerOne = Nat.pow 2 n := by
  unfold unitsPerOne
  congr

/-- A number has as many units as it has places, each at its own rate. -/
theorem places_mul_unitsPerOne (m : Nat) :
    places m * unitsPerOne = units m * placesPerOne (precision m) := by
  have hten : Nat.pow 10 (precision m) = Nat.pow 2 (precision m) * Nat.pow 5 (precision m) :=
    Nat.mul_pow 2 5 (precision m)
  unfold places units placesPerOne
  rw [hten]
  by_cases hscale : scale m ≤ 1074
  · have hsum : 1074 = scale m + precision m := by
      unfold precision
      omega
    have hunits : unitsPerOne = Nat.pow 2 (scale m) * Nat.pow 2 (precision m) := by
      rw [← two_pow_add]
      exact unitsPerOne_eq hsum
    have hnone : Nat.pow 2 (scale m - 1074) = 1 :=
      congrArg (Nat.pow 2) (Nat.sub_eq_zero_of_le hscale)
    rw [hunits, hnone, Nat.mul_one]
    ac_rfl
  · have hprecision : precision m = 0 := by
      unfold precision
      omega
    obtain ⟨n, hn⟩ : ∃ n, 1074 = n := ⟨_, rfl⟩
    have hunits : Nat.pow 2 (scale m) = Nat.pow 2 (scale m - 1074) * unitsPerOne := by
      rw [unitsPerOne_eq hn, ← two_pow_add]
      congr 1
      omega
    rw [hprecision, hunits]
    show significand m * Nat.pow 2 (scale m - 1074) * 1 * unitsPerOne =
      significand m * (Nat.pow 2 (scale m - 1074) * unitsPerOne) * 1
    rw [Nat.mul_one, Nat.mul_one, Nat.mul_assoc]

/-- The fields of a magnitude make it up again. -/
theorem scale_mul_add_significand (m : Nat) :
    scale m * fractions + significand m = m := by
  have hle : scale m * fractions ≤ m := by
    unfold scale fractions
    omega
  unfold significand
  omega

/-- The significand of a number with a scale has 53 bits. -/
theorem significand_bounds (h : 0 < scale m) :
    fractions ≤ significand m ∧ significand m < 2 * fractions := by
  have hsum := scale_mul_add_significand m
  unfold scale fractions at *
  omega

/-- A number without a scale is its significand, which has no more than 53 bits. -/
theorem significand_of_scale_eq_zero (h : scale m = 0) :
    significand m = m ∧ m < 2 * fractions := by
  have hsum := scale_mul_add_significand m
  unfold scale fractions at *
  omega

/-- The scale of a number can be told from its units. -/
theorem log2_units (m : Nat) : (units m).log2 - 52 = scale m := by
  have hfractions : (fractions : Nat) = Nat.pow 2 52 := rfl
  rcases Nat.eq_zero_or_pos (scale m) with hscale | hscale
  · obtain ⟨hself, hlt⟩ := significand_of_scale_eq_zero hscale
    have hunits : units m = m := by
      rw [units, hself, hscale]
      exact Nat.mul_one m
    rw [hunits, hscale]
    rcases Nat.eq_zero_or_pos m with rfl | hpos
    · rfl
    · have hlog : m.log2 < 53 := (Nat.log2_lt (Nat.ne_of_gt hpos)).mpr hlt
      omega
  · obtain ⟨hlow, hhigh⟩ := significand_bounds hscale
    have hpos := two_pow_pos (scale m)
    have hlog : (units m).log2 = 52 + scale m := by
      refine (Nat.log2_eq_iff ?_).mpr ⟨?_, ?_⟩
      · exact Nat.ne_of_gt (Nat.mul_pos (Nat.lt_of_lt_of_le (by decide) hlow) hpos)
      · show Nat.pow 2 (52 + scale m) ≤ _
        rw [two_pow_add, ← hfractions]
        exact Nat.mul_le_mul_right _ hlow
      · show _ < Nat.pow 2 (52 + scale m + 1)
        rw [Nat.add_right_comm, two_pow_add]
        exact (Nat.mul_lt_mul_right hpos).mpr hhigh
    omega

/-- A finite number is not NaN. -/
theorem isNaN_of_isFinite {x : Binary64} (h : x.isFinite = true) : x.isNaN = false := by
  have hm : x.magnitude < infinityMagnitude := of_decide_eq_true h
  exact decide_eq_false (Nat.not_lt.mpr (Nat.le_of_lt hm))

/-- **A finite number is the nearest to its own places.** -/
theorem nearestMagnitude_places (hm : m < infinityMagnitude) :
    nearestMagnitude (places m) (placesPerOne (precision m)) = m := by
  have hrate : 0 < placesPerOne (precision m) := Nat.pow_pos (Nat.succ_pos 9)
  have hpos := two_pow_pos (scale m)
  unfold nearestMagnitude
  dsimp only
  rw [places_mul_unitsPerOne, Nat.mul_div_cancel _ hrate, log2_units,
    Nat.mul_comm (placesPerOne _), roundHalfEven_mul_right _ _ hrate, units,
    roundHalfEven_mul_self _ hpos, scale_mul_add_significand]
  exact Nat.min_eq_right (Nat.le_of_lt hm)

/-- **What is written for a finite number is nearest to it.** -/
theorem nearestMagnitude_writtenPlaces (hm : m < infinityMagnitude) :
    nearestMagnitude (writtenPlaces m) (placesPerOne (precision m)) = m := by
  unfold writtenPlaces
  cases hfound : shortest? (readsAs m) (places m) with
  | none => exact nearestMagnitude_places hm
  | some found => exact nearestMagnitude_of_shortest? hfound

/-- A number is made of its sign and its magnitude. -/
theorem ofMagnitude_magnitude (x : Binary64) : ofMagnitude x.isNegative x.magnitude = x := by
  cases x with
  | mk bits =>
      have hlt := bits.toNat_lt
      have hsum : bits.toNat % signWeight +
          (if decide (signWeight ≤ bits.toNat) = true then signWeight else 0) = bits.toNat := by
        by_cases hnegative : signWeight ≤ bits.toNat
        · rw [if_pos (decide_eq_true hnegative)]
          unfold signWeight at *
          omega
        · rw [if_neg (by rw [decide_eq_true_eq]; exact hnegative)]
          unfold signWeight at *
          omega
      unfold ofMagnitude isNegative magnitude
      dsimp only
      rw [hsum, UInt64.ofNat_toNat]

end RecordFilter.Binary64
