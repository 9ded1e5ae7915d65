import RecordFilter.Proofs.Binary64.Nearest
import RecordFilter.Proofs.Text.Digits

/-!
# The text of a decimal reads back

A finite number is written in positional notation, and zeros at the end of the fraction are
left out.  The digits that are left write the same quotient, so they are read as the same
number, and the sign is read as it was written, at both zeros too.

* `exists_digits_of_text` — the text of a finite number is a decimal that is read as the
  number itself, bit for bit.
-/

namespace RecordFilter.Binary64

/-- Zeros at the end, apart from the rest. -/
theorem exists_stripped (chars : List Char) :
    ∃ k, chars = (chars.reverse.dropWhile (· == '0')).reverse ++ List.replicate k '0' := by
  have hzeros : ∀ c ∈ chars.reverse.takeWhile (· == '0'), c = '0' := by
    intro c hc
    have hall := List.all_eq_true.mp (List.all_takeWhile (l := chars.reverse)) c hc
    simpa using hall
  refine ⟨(chars.reverse.takeWhile (· == '0')).length, ?_⟩
  have hreplicate := List.eq_replicate_iff.mpr ⟨rfl, hzeros⟩
  calc
    chars = (chars.reverse.takeWhile (· == '0') ++
          chars.reverse.dropWhile (· == '0')).reverse := by
        rw [List.takeWhile_append_dropWhile, List.reverse_reverse]
    _ = (chars.reverse.dropWhile (· == '0')).reverse ++
          (chars.reverse.takeWhile (· == '0')).reverse := List.reverse_append
    _ = _ := by rw [hreplicate, List.reverse_replicate, List.length_replicate]

/-- The digits of a number, with zeros in front of them. -/
theorem value_padded (zeros n : Nat) :
    Nat.ofDigitChars 10 (List.replicate zeros '0' ++ Nat.toDigits 10 n) 0 = n := by
  rw [Nat.ofDigitChars_append, Nat.ofDigitChars_replicate_zero, Nat.mul_zero,
    Nat.ofDigitChars_ten_toDigits]

/-- A number with zeros in front is written in digits. -/
theorem isDigit_of_mem_padded (zeros n : Nat) :
    ∀ c ∈ List.replicate zeros '0' ++ Nat.toDigits 10 n, c.isDigit = true := by
  intro c hc
  rcases List.mem_append.mp hc with hc | hc
  · rw [List.eq_of_mem_replicate hc]
    rfl
  · exact isDigit_of_mem_toDigits c hc

/-- The digits behind the point write as many places as they should, at their own rate. -/
theorem fractionDigits_spec {precision rest : Nat} (hrest : rest < placesPerOne precision) :
    fractionDigits precision rest ≠ [] ∧
      (∀ c ∈ fractionDigits precision rest, c.isDigit = true) ∧
      Nat.ofDigitChars 10 (fractionDigits precision rest) 0 * placesPerOne precision =
        rest * Nat.pow 10 (fractionDigits precision rest).length := by
  cases precision with
  | zero =>
      obtain rfl : rest = 0 := Nat.lt_one_iff.mp hrest
      exact ⟨by decide, List.all_eq_true.mp (by decide), by decide⟩
  | succ p =>
      have hlength : (Nat.toDigits 10 rest).length ≤ p + 1 :=
        (Nat.length_toDigits_le_iff (by decide) (Nat.succ_pos p)).mpr hrest
      have hvalue := value_padded (p + 1 - (Nat.toDigits 10 rest).length) rest
      have hdigits := isDigit_of_mem_padded (p + 1 - (Nat.toDigits 10 rest).length) rest
      have hpadded : (List.replicate (p + 1 - (Nat.toDigits 10 rest).length) '0' ++
          Nat.toDigits 10 rest).length = p + 1 := by
        rw [List.length_append, List.length_replicate]
        omega
      obtain ⟨k, hk⟩ := exists_stripped
        (List.replicate (p + 1 - (Nat.toDigits 10 rest).length) '0' ++ Nat.toDigits 10 rest)
      unfold fractionDigits
      dsimp only
      split
      · next hnone =>
        -- Nothing but zeros is left out, so there was nothing to write.
        rw [hk, hnone, List.nil_append, Nat.ofDigitChars_replicate_zero, Nat.mul_zero] at hvalue
        subst hvalue
        exact ⟨by decide, List.all_eq_true.mp (by decide), by
          rw [Nat.zero_mul]; exact Nat.zero_mul _⟩
      · next d ds hsome =>
        rw [hsome] at hk
        rw [hk] at hvalue hdigits hpadded
        rw [Nat.ofDigitChars_append, Nat.ofDigitChars_replicate_zero] at hvalue
        rw [List.length_append, List.length_replicate] at hpadded
        refine ⟨List.cons_ne_nil d ds, fun c hc => hdigits c (List.mem_append_left _ hc), ?_⟩
        rw [← hvalue, placesPerOne, ← hpadded]
        show _ * 10 ^ ((d :: ds).length + k) = 10 ^ k * _ * 10 ^ (d :: ds).length
        rw [Nat.pow_add]
        ac_rfl

/-- Digits in front of the point and behind it write one quotient. -/
theorem value_append_digits (whole fraction : List Char) :
    Nat.ofDigitChars 10 (whole ++ fraction) 0 =
      Nat.pow 10 fraction.length * Nat.ofDigitChars 10 whole 0 +
        Nat.ofDigitChars 10 fraction 0 := by
  rw [Nat.ofDigitChars_append, Nat.ofDigitChars_eq_ofDigitChars_zero]
  rfl

/-- **What is written in positional notation is read as the nearest number.** -/
theorem exists_digits_of_positional (negative : Bool) (precision count : Nat) :
    ∃ whole fraction, IsDigits whole ∧ IsDigits fraction ∧
      Utf8.encode (positional precision count) = whole ++ Byte.dot :: fraction ∧
      ofDigits negative whole fraction =
        ofMagnitude negative (nearestMagnitude count (placesPerOne precision)) := by
  have hrate : 0 < placesPerOne precision := Nat.pow_pos (Nat.succ_pos 9)
  obtain ⟨hne, hdigits, hvalue⟩ := fractionDigits_spec (Nat.mod_lt count hrate)
  refine ⟨Utf8.bytes (Nat.toDigits 10 (count / placesPerOne precision)),
    Utf8.bytes (fractionDigits precision (count % placesPerOne precision)),
    isDigits_toDigits _, isDigits_bytes hne hdigits, ?_, ?_⟩
  · rw [positional, Utf8.encode_ofList, ← Utf8.bytes, Utf8.bytes_append]
    rfl
  · generalize fractionDigits precision (count % placesPerOne precision) = fraction
      at hne hdigits hvalue ⊢
    have hall : ∀ c ∈ Nat.toDigits 10 (count / placesPerOne precision) ++ fraction,
        c.isDigit = true := by
      intro c hc
      rcases List.mem_append.mp hc with hc | hc
      · exact isDigit_of_mem_toDigits c hc
      · exact hdigits c hc
    rw [ofDigits, ← Utf8.bytes_append, natOfDigits_bytes hall, length_bytes_digits hdigits,
      value_append_digits, Nat.ofDigitChars_ten_toDigits]
    refine congrArg (ofMagnitude negative)
      (nearestMagnitude_congr (Nat.pow_pos (Nat.succ_pos 9)) hrate ?_)
    calc
      (Nat.pow 10 fraction.length * (count / placesPerOne precision) +
            Nat.ofDigitChars 10 fraction 0) * placesPerOne precision =
          (placesPerOne precision * (count / placesPerOne precision) +
            count % placesPerOne precision) * Nat.pow 10 fraction.length := by
        rw [Nat.add_mul, hvalue, Nat.add_mul]
        ac_rfl
      _ = count * Nat.pow 10 fraction.length := by rw [Nat.div_add_mod]

/-- **The text of a finite number is read as the number itself**, bit for bit. -/
theorem exists_digits_of_text {x : Binary64} (h : x.isFinite = true) :
    ∃ whole fraction, IsDigits whole ∧ IsDigits fraction ∧
      Utf8.encode x.text = Byte.sign x.isNegative ++ (whole ++ Byte.dot :: fraction) ∧
      ofDigits x.isNegative whole fraction = x := by
  have hm : x.magnitude < infinityMagnitude := of_decide_eq_true h
  obtain ⟨whole, fraction, hwhole, hfraction, htext, hvalue⟩ := exists_digits_of_positional
    x.isNegative (precision x.magnitude) (writtenPlaces x.magnitude)
  refine ⟨whole, fraction, hwhole, hfraction, ?_, ?_⟩
  · unfold text
    rw [isNaN_of_isFinite h, if_neg (by decide)]
    dsimp only
    rw [if_pos h]
    cases x.isNegative with
    | false =>
        rw [if_neg (by decide), htext]
        rfl
    | true =>
        rw [if_pos rfl, Utf8.encode_append, htext]
        rfl
  · rw [hvalue, nearestMagnitude_writtenPlaces hm, ofMagnitude_magnitude]

end RecordFilter.Binary64
