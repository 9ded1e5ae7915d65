import RecordFilter.Proofs.Binary64.Rounding
import RecordFilter.Proofs.Reading.Literal
import Mathlib.Data.List.Induction
import Mathlib.Data.Nat.Digits.Defs

/-!
# What the reader of numbers reads

A number is digits, or digits around a point, after a minus sign if there is one.  Nothing else
counts: not how many digits there are, not the zeros in front, not what stands behind.  Digits
alone are read as the integer that they write if it has 64 bits, and digits around a point as the
decimal nearest to what they write if it is finite.

* `Byte.natOfDigits_eq` — the digits of a number, added up from the first or from the last;
* `number_of_integer`, `number_of_decimal`, `number_of_lacking` — what is read of a number, and
  of one that lacks a digit;
* `numeral_longest` — no number at the front of a window is longer than the one that is read;
* `number_exact` — all of it.
-/

namespace RecordFilter

/-! ## What digits write -/

/-- The number that digits write in base ten, the last digit being that of the ones. -/
def Byte.decimal (digits : List UInt8) : ℕ :=
  Nat.ofDigits 10 (digits.reverse.map fun d => d.toNat - 0x30)

/-- Digits are added up from the first to the last. -/
theorem Byte.natOfDigits_eq (digits : List UInt8) :
    Byte.natOfDigits digits = Byte.decimal digits := by
  induction digits using List.reverseRecOn with
  | nil => rfl
  | append_singleton digits d ih =>
      rw [Byte.natOfDigits, List.foldl_append]
      show 10 * Byte.natOfDigits digits + Byte.digitValue d = _
      rw [ih, Byte.decimal, Byte.decimal, List.reverse_append, List.reverse_singleton,
        List.singleton_append, List.map_cons, Nat.ofDigits_cons, Nat.add_comm, Byte.digitValue]

/-- Digits behind others move them up by a place each. -/
theorem Byte.decimal_append (whole fraction : List UInt8) :
    Byte.decimal (whole ++ fraction) =
      Byte.decimal fraction + 10 ^ fraction.length * Byte.decimal whole := by
  rw [Byte.decimal, List.reverse_append, List.map_append, Nat.ofDigits_append, List.length_map,
    List.length_reverse]
  rfl

/-- The number of a sign and an absolute value. -/
def signed (negative : Bool) (n : ℕ) : ℤ := if negative then -n else n

/-- The 64-bit integers are the numbers from the least to the greatest of them. -/
theorem exists_toInt_eq_iff (k : ℤ) :
    (∃ n : Int64, n.toInt = k) ↔ -2 ^ 63 ≤ k ∧ k ≤ 2 ^ 63 - 1 := by
  constructor
  · rintro ⟨n, rfl⟩
    exact ⟨n.le_toInt, Int.le_sub_one_of_lt n.toInt_lt⟩
  · rintro ⟨hlow, hhigh⟩
    exact ⟨Int64.ofInt k, Int64.toInt_ofInt_of_le hlow (Int.lt_of_le_sub_one hhigh)⟩

namespace Literal

variable {place : Place} {w middle after : Window} {value : Value} {start : Nat}
  {negative : Bool} {digits whole fraction text : List UInt8} {b : UInt8}

/-! ## Signs -/

/-- A sign is read first.  Where there is none, no minus sign may come next. -/
theorem number_of_sign (hsign : w.Takes (Byte.sign negative) middle)
    (hnext : negative = false → middle.peek? ≠ some Byte.minus) :
    number place w = Literal.digits place w.pos negative middle := by
  cases negative with
  | true =>
      have hmiddle : w.skip 1 = middle := hsign.skip_eq
      rw [number, if_pos hsign.peek?_cons, hmiddle]
  | false =>
      obtain rfl := hsign.eq_of_nil rfl
      rw [number, if_neg (hnext rfl)]

/-- No minus sign is in front of digits. -/
theorem peek?_ne_minus_of_digits {more : List UInt8} (h : IsDigits digits)
    (htakes : w.Takes (digits ++ more) after) : w.peek? ≠ some Byte.minus := by
  obtain ⟨b, rest, heq, hb⟩ := exists_cons_of_isDigits h more
  rw [heq] at htakes
  rw [htakes.peek?_cons]
  intro hminus
  cases hminus
  exact absurd hb (by decide)

/-! ## Numbers -/

/-- **Digits alone** are read as the integer that they write, if it has 64 bits. -/
theorem number_of_integer (hdigits : IsDigits digits)
    (htakes : w.Takes (Byte.sign negative ++ digits) after)
    (hnext : ∀ b, after.peek? = some b → Byte.isDigit b = false ∧ b ≠ Byte.dot) :
    (∀ n : Int64, n.toInt = signed negative (Byte.decimal digits) →
      number place w = .ok (.integer n, after)) ∧
    ((∀ n : Int64, n.toInt ≠ signed negative (Byte.decimal digits)) →
      number place w = outOfRange place w.pos) := by
  obtain ⟨middle, hsign, hrest⟩ := htakes.split
  obtain ⟨hrun, hskip⟩ := hrest.run_eq hdigits.all fun b hb => (hnext b hb).1
  have hdot : after.peek? ≠ some Byte.dot := fun h => (hnext _ h).2 rfl
  have hminus : middle.peek? ≠ some Byte.minus := by
    rw [← List.append_nil digits] at hrest
    exact peek?_ne_minus_of_digits hdigits hrest
  have hinteger : ∀ n : Int64, integer? negative digits = some n ↔
      n.toInt = signed negative (Byte.decimal digits) := by
    intro n
    rw [integer?_eq_some_iff, Byte.natOfDigits_eq, signed]
  rw [number_of_sign hsign (fun _ => hminus), Literal.digits, hrun, hskip,
    if_neg (by simp [hdigits.isEmpty]), if_neg hdot]
  constructor
  · intro n hn
    rw [(hinteger n).mpr hn]
  · intro hnone
    cases hread : integer? negative digits with
    | none => rfl
    | some n => exact absurd ((hinteger n).mp hread) (hnone n)

variable (place) in
/-- **Digits around a point** are read as the decimal nearest to what they write, if it is
finite. -/
theorem number_of_decimal (hwhole : IsDigits whole) (hfraction : IsDigits fraction)
    (htakes : w.Takes (Byte.sign negative ++ (whole ++ Byte.dot :: fraction)) after)
    (hnext : ∀ b, after.peek? = some b → Byte.isDigit b = false) :
    number place w =
      if (Binary64.ofDigits negative whole fraction).isFinite then
        .ok (.decimal (Binary64.ofDigits negative whole fraction), after)
      else outOfRange place w.pos := by
  obtain ⟨middle, hsign, hrest⟩ := htakes.split
  have hminus := peek?_ne_minus_of_digits hwhole hrest
  rw [List.append_cons] at hrest
  obtain ⟨behind, hpoint, hbehind⟩ := hrest.split
  obtain ⟨hrun, hskip⟩ := hbehind.run_eq hfraction.all hnext
  rw [number_of_sign hsign (fun _ => hminus), digits_of_point hwhole hpoint, Literal.fraction,
    hrun, hskip, if_neg (by simp [hfraction.isEmpty])]

/-! ## Numbers that lack a digit -/

/-- No digit comes next. -/
def NoDigit (w : Window) : Prop := ∀ b, w.peek? = some b → Byte.isDigit b = false

/-- Where no digit comes next, no digits are skipped. -/
theorem NoDigit.run_eq (h : NoDigit w) :
    w.run Byte.isDigit = [] ∧ w.skipWhile Byte.isDigit = w :=
  w.takes_nil.run_eq (fun _ hb => absurd hb List.not_mem_nil) h

/-- What has to be followed by a digit: a minus sign, or digits and a point. -/
inductive Lacking : List UInt8 → Prop
  | sign : Lacking [Byte.minus]
  | point (negative : Bool) {whole : List UInt8} (hwhole : IsDigits whole) :
      Lacking (Byte.sign negative ++ (whole ++ [Byte.dot]))

variable (place) in
/-- **A number that lacks a digit** fails where the digit should stand. -/
theorem number_of_lacking (h : Lacking text) (htakes : w.Takes text after)
    (hnext : NoDigit after) : number place w = missingDigit place after := by
  obtain ⟨hrun, hskip⟩ := hnext.run_eq
  cases h with
  | sign =>
      have hsign : w.Takes (Byte.sign true) after := htakes
      rw [number_of_sign hsign (fun h => nomatch h), Literal.digits, hrun, hskip,
        if_pos List.isEmpty_nil]
  | point negative hwhole =>
      obtain ⟨middle, hsign, hrest⟩ := htakes.split
      have hminus := peek?_ne_minus_of_digits hwhole hrest
      rw [number_of_sign hsign (fun _ => hminus), digits_of_point hwhole hrest, Literal.fraction,
        hrun, hskip, if_pos List.isEmpty_nil]

/-! ## The longest number -/

/-- The texts of numbers. -/
inductive Numeral : List UInt8 → Prop
  | integer (negative : Bool) {digits : List UInt8} (h : IsDigits digits) :
      Numeral (Byte.sign negative ++ digits)
  | decimal (negative : Bool) {whole fraction : List UInt8} (hwhole : IsDigits whole)
      (hfraction : IsDigits fraction) :
      Numeral (Byte.sign negative ++ (whole ++ Byte.dot :: fraction))

theorem dot_not_mem_digits (h : IsDigits digits) : Byte.dot ∉ digits := by
  intro hdot
  exact absurd (h.all _ hdot) (by decide)

theorem dot_not_mem_sign (negative : Bool) : Byte.dot ∉ Byte.sign negative := by
  cases negative <;> decide

/-- The first byte of a number may be a sign.  Behind it stand digits, and one point at most. -/
theorem Numeral.tail (h : Numeral text) :
    text ≠ [] ∧ (∀ b ∈ text.tail, Byte.isDigit b = true ∨ b = Byte.dot) ∧
      text.count Byte.dot ≤ 1 := by
  have hbehind : ∀ (negative : Bool) (body : List UInt8), ∀ b ∈ (Byte.sign negative ++ body).tail,
      b ∈ body := by
    intro negative body b hb
    cases negative with
    | true => exact hb
    | false => exact List.mem_of_mem_tail hb
  cases h with
  | integer negative hdigits =>
      refine ⟨by simp [hdigits.nonempty], ?_, ?_⟩
      · intro b hb
        exact .inl (hdigits.all b (hbehind _ _ b hb))
      · rw [List.count_append, List.count_eq_zero_of_not_mem (dot_not_mem_sign negative),
          List.count_eq_zero_of_not_mem (dot_not_mem_digits hdigits)]
        decide
  | decimal negative hwhole hfraction =>
      refine ⟨by simp, ?_, ?_⟩
      · intro b hb
        rcases List.mem_append.mp (hbehind _ _ b hb) with hb | hb
        · exact .inl (hwhole.all b hb)
        rcases List.mem_cons.mp hb with hb | hb
        · exact .inr hb
        · exact .inl (hfraction.all b hb)
      · rw [List.count_append, List.count_append, List.count_cons_self,
          List.count_eq_zero_of_not_mem (dot_not_mem_sign negative),
          List.count_eq_zero_of_not_mem (dot_not_mem_digits hwhole),
          List.count_eq_zero_of_not_mem (dot_not_mem_digits hfraction)]

/-- **No number at the front of a window is longer** than one that no digit follows, and no point
if it has none yet. -/
theorem numeral_longest {longer : List UInt8} (h : Numeral text) (htakes : w.Takes text after)
    (hdigit : NoDigit after) (hpoint : Byte.dot ∉ text → after.peek? ≠ some Byte.dot)
    (hlonger : Numeral longer) (hfront : longer <+: w.rest) :
    longer.length ≤ text.length := by
  by_contra hless
  have htext : text <+: w.rest := ⟨after.rest, htakes.rest_eq.symm⟩
  obtain ⟨more, rfl⟩ := List.prefix_of_prefix_length_le htext hfront (by omega)
  cases more with
  | nil => simp at hless
  | cons b more =>
      obtain ⟨rest, hrest⟩ := hfront
      rw [htakes.rest_eq, List.append_assoc] at hrest
      have hpeek : after.peek? = some b := by
        rw [Window.peek?, ← List.append_cancel_left hrest]
        rfl
      obtain ⟨-, htail, hcount⟩ := hlonger.tail
      -- The next byte would go on with the number, so it would be a second point.
      have hdot : b = Byte.dot := by
        refine (htail b ?_).resolve_left (by rw [hdigit b hpeek]; decide)
        rw [List.tail_append_of_ne_nil h.tail.1]
        exact List.mem_append_right _ List.mem_cons_self
      subst hdot
      rw [List.count_append, List.count_cons_self] at hcount
      have hmem : Byte.dot ∉ text := List.count_eq_zero.mp (by omega)
      exact hpoint hmem hpeek

/-- What is read is a number, and ends where the number ends. -/
theorem exists_numeral_of_number (h : number place w = .ok (value, after)) :
    ∃ text, Numeral text ∧ w.Takes text after ∧ NoDigit after ∧
      (Byte.dot ∉ text → after.peek? ≠ some Byte.dot) := by
  have hdigits : ∃ negative middle, w.Takes (Byte.sign negative) middle ∧
      Literal.digits place w.pos negative middle = .ok (value, after) := by
    unfold number at h
    split at h
    · next hminus => exact ⟨true, _, Window.takes_of_peek? hminus, h⟩
    · exact ⟨false, w, w.takes_nil, h⟩
  obtain ⟨negative, middle, hsign, hdigits⟩ := hdigits
  rcases digits_eq_ok_iff.mp hdigits with ⟨digits, n, hall, htakes, hnext, -⟩ |
    ⟨whole, fraction, hwhole, hfraction, htakes, hnext, -⟩
  · exact ⟨_, .integer negative hall, hsign.trans htakes, fun b hb => (hnext b hb).1,
      fun _ hdot => (hnext _ hdot).2 rfl⟩
  · refine ⟨_, .decimal negative hwhole hfraction, hsign.trans htakes, hnext, ?_⟩
    intro hnone
    exact absurd (by simp) hnone

/-- The reading of digits around a point. -/
theorem isReading_of_digits (negative : Bool) (whole fraction : List UInt8) :
    (Binary64.ofDigits negative whole fraction).IsReading negative
      (Byte.decimal whole + Byte.decimal fraction / 10 ^ fraction.length : ℚ) := by
  have hvalue : (Byte.decimal whole + Byte.decimal fraction / 10 ^ fraction.length : ℚ) =
      (Byte.natOfDigits (whole ++ fraction) : ℚ) / (10 ^ fraction.length : ℕ) := by
    rw [Byte.natOfDigits_eq, Byte.decimal_append]
    push_cast
    field_simp
    exact add_comm _ _
  rw [hvalue]
  exact Binary64.isReading_ofDigits negative whole fraction

/-- **Numbers are read exactly.**

A literal that starts with a minus sign or a digit is read as a number.  Digits alone are read as
the integer that they write if it has 64 bits, and digits around a point as the decimal nearest to
what they write if it is finite.  Otherwise the number is out of range, which is told at its first
byte.  A number that lacks a digit fails where the digit should stand, or at the end of the window.
And what is read is the longest number there. -/
theorem number_exact (place : Place) (w : Window) :
    (∀ b, w.peek? = some b → b = Byte.minus ∨ Byte.isDigit b = true →
      unended place w = number place w) ∧
    (∀ negative digits after, IsDigits digits → w.Takes (Byte.sign negative ++ digits) after →
      (∀ b, after.peek? = some b → Byte.isDigit b = false ∧ b ≠ Byte.dot) →
      let k := signed negative (Byte.decimal digits)
      (-2 ^ 63 ≤ k ∧ k ≤ 2 ^ 63 - 1 →
        ∃ n : Int64, n.toInt = k ∧ number place w = .ok (.integer n, after)) ∧
      (¬(-2 ^ 63 ≤ k ∧ k ≤ 2 ^ 63 - 1) →
        number place w =
          .error ⟨.invalidLiteral, w.pos, place.part, "a number in range"⟩)) ∧
    (∀ negative whole fraction after, IsDigits whole → IsDigits fraction →
      w.Takes (Byte.sign negative ++ (whole ++ Byte.dot :: fraction)) after → NoDigit after →
      let q : ℚ := Byte.decimal whole + Byte.decimal fraction / 10 ^ fraction.length
      ∃ x : Binary64, x.IsReading negative q ∧
        (x.isFinite = true ↔ q < 2 ^ 1024 - 2 ^ 970) ∧
        (x.isFinite = true → number place w = .ok (.decimal x, after)) ∧
        (x.isFinite = false → number place w =
          .error ⟨.invalidLiteral, w.pos, place.part, "a number in range"⟩)) ∧
    (∀ text after, Lacking text → w.Takes text after → NoDigit after →
      (after.peek? = none → number place w =
        .error ⟨.truncatedInput, w.stop, place.part, "a digit"⟩) ∧
      (after.peek? ≠ none → number place w =
        .error ⟨.invalidLiteral, after.pos, place.part, "a digit"⟩)) ∧
    (∀ value after, number place w = .ok (value, after) →
      ∃ text, Numeral text ∧ w.Takes text after ∧
        ∀ longer, Numeral longer → longer <+: w.rest → longer.length ≤ text.length) := by
  refine ⟨fun b => unended_eq_number, ?_, ?_, ?_, ?_⟩
  · intro negative digits after hdigits htakes hnext k
    obtain ⟨hread, hrange⟩ := number_of_integer hdigits htakes hnext
    rw [← exists_toInt_eq_iff]
    constructor
    · rintro ⟨n, hn⟩
      exact ⟨n, hn, hread n hn⟩
    · intro hnone
      exact hrange fun n hn => hnone ⟨n, hn⟩
  · intro negative whole fraction after hwhole hfraction htakes hnext q
    have hreading := isReading_of_digits negative whole fraction
    have hnumber := number_of_decimal place hwhole hfraction htakes hnext
    refine ⟨_, hreading, hreading.isFinite_iff, ?_, ?_⟩
    · intro hfinite
      rw [hnumber, if_pos hfinite]
    · intro hinfinite
      rw [hnumber, if_neg (by rw [hinfinite]; decide)]
      rfl
  · intro text after hlacking htakes hnext
    rw [number_of_lacking place hlacking htakes hnext, missingDigit, Window.atEnd, ← htakes.stop_eq]
    constructor
    · intro hend
      rw [Window.peek?_eq_none_iff.mp hend]
      rfl
    · intro hmore
      have hrest : after.rest.isEmpty = false := by
        rw [List.isEmpty_eq_false_iff]
        exact fun h => hmore (Window.peek?_eq_none_iff.mpr h)
      rw [hrest]
      rfl
  · intro value after h
    obtain ⟨text, hnumeral, htakes, hdigit, hpoint⟩ := exists_numeral_of_number h
    exact ⟨text, hnumeral, htakes, fun longer hlonger hfront =>
      numeral_longest hnumeral htakes hdigit hpoint hlonger hfront⟩

/-- An integer with a sign and a decimal that is the last argument of a function. -/
theorem number_exact_texts :
    (∃ n : Int64, n.toInt = -42 ∧ number .operand ⟨5, Utf8.encode "-042 "⟩ =
      .ok (.integer n, ⟨9, [Byte.space]⟩)) ∧
    ∃ x : Binary64, x.IsReading false (5 / 2) ∧ number .argument ⟨4, Utf8.encode "2.5)"⟩ =
      .ok (.decimal x, ⟨7, [Byte.closeParen]⟩) := by
  constructor
  · have hnext : ∀ b, (⟨9, [Byte.space]⟩ : Window).peek? = some b →
        Byte.isDigit b = false ∧ b ≠ Byte.dot := by
      rintro b ⟨⟩
      decide
    have hinteger := (number_exact .operand ⟨5, Utf8.encode "-042 "⟩).2.1 true
      (Utf8.encode "042") ⟨9, [Byte.space]⟩ (by decide) ⟨by decide, by decide⟩ hnext
    exact hinteger.1 (by decide)
  · have hnext : NoDigit ⟨7, [Byte.closeParen]⟩ := by
      rintro b ⟨⟩
      decide
    have hdecimal := (number_exact .argument ⟨4, Utf8.encode "2.5)"⟩).2.2.1 false
      (Utf8.encode "2") (Utf8.encode "5") ⟨7, [Byte.closeParen]⟩ (by decide) (by decide)
      ⟨by decide, by decide⟩ hnext
    obtain ⟨x, hreading, hfinite, hread, -⟩ := hdecimal
    have hvalue : (Byte.decimal (Utf8.encode "2") +
        Byte.decimal (Utf8.encode "5") / 10 ^ (Utf8.encode "5").length : ℚ) = 5 / 2 := by
      have htwo : Byte.decimal (Utf8.encode "2") = 2 := by decide
      have hfive : Byte.decimal (Utf8.encode "5") = 5 := by decide
      have hone : (Utf8.encode "5").length = 1 := by decide
      rw [htwo, hfive, hone]
      norm_num
    have hsmall : (5 / 2 : ℚ) < 2 ^ 1024 - 2 ^ 970 := by
      have hone : (1 : ℚ) ≤ 2 ^ 970 := one_le_pow₀ (by norm_num)
      calc (5 / 2 : ℚ)
          < 1 * (2 ^ 54 - 1) := by norm_num
        _ ≤ 2 ^ 970 * (2 ^ 54 - 1) := mul_le_mul_of_nonneg_right hone (by norm_num)
        _ = 2 ^ 1024 - 2 ^ 970 := by rw [mul_sub_one, ← pow_add]
    rw [hvalue] at hreading hfinite
    exact ⟨x, hreading, hread (hfinite.mpr hsmall)⟩

end Literal

end RecordFilter
