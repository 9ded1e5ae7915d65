import RecordFilter.Proofs.Grammar.Token
import RecordFilter.Proofs.Text.Utf8

/-!
# The bytes of digits

Numbers are written as characters and read as bytes.  A digit is one byte in either form,
and the two ways to add up digits agree.

* `natOfDigits_bytes` — the number that the bytes of digits write.
-/

namespace RecordFilter

/-- Digits are the characters from `0` to `9`. -/
theorem isDigit_iff {c : Char} : c.isDigit = true ↔ 48 ≤ c.toNat ∧ c.toNat ≤ 57 := by
  have hrange : c.isDigit = (decide (c.val ≥ '0'.val) && decide (c.val ≤ '9'.val)) := rfl
  rw [hrange]
  simp [UInt32.le_iff_toNat_le]

/-- The bytes of characters. -/
def Utf8.bytes (chars : List Char) : List UInt8 := chars.flatMap String.utf8EncodeChar

theorem Utf8.bytes_append (front back : List Char) :
    Utf8.bytes (front ++ back) = Utf8.bytes front ++ Utf8.bytes back :=
  List.flatMap_append

/-- A digit is a byte. -/
theorem Utf8.bytes_cons_digit {c : Char} (hc : c.isDigit = true) (chars : List Char) :
    Utf8.bytes (c :: chars) = c.toUInt8 :: Utf8.bytes chars := by
  have hrange := isDigit_iff.mp hc
  rw [Utf8.bytes, List.flatMap_cons, Utf8.encodeChar_of_lt (by omega)]
  rfl

variable {chars : List Char}

theorem length_bytes_digits (h : ∀ c ∈ chars, c.isDigit = true) :
    (Utf8.bytes chars).length = chars.length := by
  induction chars with
  | nil => rfl
  | cons c chars ih =>
      rw [Utf8.bytes_cons_digit (h c List.mem_cons_self), List.length_cons, List.length_cons,
        ih fun d hd => h d (List.mem_cons_of_mem c hd)]

/-- The bytes of digits are digits. -/
theorem isDigits_bytes (hne : chars ≠ []) (h : ∀ c ∈ chars, c.isDigit = true) :
    IsDigits (Utf8.bytes chars) := by
  refine ⟨?_, ?_⟩
  · intro hnil
    have hlength := length_bytes_digits h
    rw [hnil] at hlength
    exact hne (List.length_eq_zero_iff.mp hlength.symm)
  · intro b hb
    obtain ⟨c, hc, hbc⟩ := List.mem_flatMap.mp hb
    have hrange := isDigit_iff.mp (h c hc)
    rw [Utf8.encodeChar_of_lt (by omega), List.mem_singleton] at hbc
    rw [hbc, Byte.isDigit_iff, Utf8.toNat_toUInt8 (by omega)]
    exact hrange

/-- Bytes and characters add up to the same number. -/
theorem foldl_bytes_digits (h : ∀ c ∈ chars, c.isDigit = true) (value : Nat) :
    (Utf8.bytes chars).foldl (fun value digit => 10 * value + Byte.digitValue digit) value =
      Nat.ofDigitChars 10 chars value := by
  induction chars generalizing value with
  | nil => exact Nat.ofDigitChars_nil.symm
  | cons c chars ih =>
      have hc := h c List.mem_cons_self
      have hrange := isDigit_iff.mp hc
      have hvalue : Byte.digitValue c.toUInt8 = c.toNat - '0'.toNat := by
        rw [Byte.digitValue, Utf8.toNat_toUInt8 (by omega)]
        rfl
      rw [Utf8.bytes_cons_digit hc, List.foldl_cons, Nat.ofDigitChars_cons, hvalue,
        ih fun d hd => h d (List.mem_cons_of_mem c hd)]

/-- **The number that the bytes of digits write.** -/
theorem natOfDigits_bytes (h : ∀ c ∈ chars, c.isDigit = true) :
    Byte.natOfDigits (Utf8.bytes chars) = Nat.ofDigitChars 10 chars 0 :=
  foldl_bytes_digits h 0

/-! ## The digits of a number -/

theorem isDigit_of_mem_toDigits {n : Nat} : ∀ c ∈ Nat.toDigits 10 n, c.isDigit = true :=
  fun _ hc => Nat.isDigit_of_mem_toDigits (by decide) (by decide) hc

/-- The bytes of a number are digits. -/
theorem isDigits_toDigits (n : Nat) : IsDigits (Utf8.bytes (Nat.toDigits 10 n)) :=
  isDigits_bytes Nat.toDigits_ne_nil isDigit_of_mem_toDigits

/-- The bytes of a number write the number. -/
theorem natOfDigits_toDigits (n : Nat) :
    Byte.natOfDigits (Utf8.bytes (Nat.toDigits 10 n)) = n := by
  rw [natOfDigits_bytes isDigit_of_mem_toDigits, Nat.ofDigitChars_ten_toDigits]

end RecordFilter
