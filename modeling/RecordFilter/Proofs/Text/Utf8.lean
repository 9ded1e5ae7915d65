import RecordFilter.Proofs.Grammar.Token
import RecordFilter.Reading.Basic

/-!
# UTF-8 from the bytes' side

`decode_encode` reads back what was written.  Here is the converse, that bytes which
decode are the bytes of the text they decode to, and what sets ASCII apart: a byte below
`0x80` stands for itself wherever it occurs, so no part of a longer character can be
taken for a quote, a backslash or a letter.

* `decode_eq_ok_iff` — decoding succeeds exactly on what encoding produces;
* `decode_eq_error_iff`, `exists_breaksAt_iff` — where decoding stops, and which bytes no
  continuation makes UTF-8;
* `IsName.letters_encode`, `exists_name_of_letters` — names and runs of letters;
* `readName_encode` — reading a run of letters as a name cannot fail.
-/

namespace RecordFilter.Utf8

/-- The bytes of a text are those of its characters. -/
theorem encode_ofList (text : List Char) :
    encode (String.ofList text) = text.flatMap String.utf8EncodeChar := by
  rw [encode_eq_flatMap, String.toList_ofList]

/-- The bytes of two texts stand one behind the other. -/
theorem encode_append (s t : String) : encode (s ++ t) = encode s ++ encode t := by
  rw [encode_eq_flatMap, encode_eq_flatMap, encode_eq_flatMap, String.toList_append,
    List.flatMap_append]

/-- Different texts have different bytes. -/
theorem encode_inj {s t : String} (h : encode s = encode t) : s = t := by
  have hread := congrArg decode h
  rw [decode_encode, decode_encode] at hread
  exact String.toList_inj.mp (Except.ok.inj hread)

/-- The character at the front of some bytes is written there. -/
theorem eq_append_of_first? {bytes : List UInt8} {c : Char} (h : first? bytes = some c) :
    bytes = String.utf8EncodeChar c ++ bytes.drop c.utf8Size := by
  obtain ⟨tail, htail⟩ := ByteArray.exists_of_utf8DecodeChar?_eq_some h
  have hfour : bytes.take 4 = String.utf8EncodeChar c ++ tail.data.toList := by
    simpa using congrArg (fun array : ByteArray => array.data.toList) htail
  have hfront : String.utf8EncodeChar c <+: bytes :=
    List.IsPrefix.trans ⟨_, hfour.symm⟩ (List.take_prefix 4 bytes)
  obtain ⟨rest, rfl⟩ := hfront
  rw [← String.length_utf8EncodeChar, List.drop_left]

/-- Bytes that decode are the bytes of their text. -/
theorem eq_flatMap_of_decodeFrom {offset : Nat} {read text : List Char} {bytes : List UInt8}
    (h : decodeFrom offset read bytes = .ok text) :
    ∃ more, text = read.reverse ++ more ∧ bytes = more.flatMap String.utf8EncodeChar := by
  fun_induction decodeFrom offset read bytes with
  | case1 offset read bytes hempty =>
      cases h
      refine ⟨[], by simp, ?_⟩
      simpa using hempty
  | case2 => cases h
  | case3 offset read bytes hempty c hfirst ih =>
      obtain ⟨more, rfl, hmore⟩ := ih h
      refine ⟨c :: more, by simp, ?_⟩
      rw [List.flatMap_cons, ← hmore]
      exact eq_append_of_first? hfirst

/-- **Decoding inverts encoding exactly.** -/
theorem decode_eq_ok_iff {bytes : List UInt8} {text : List Char} :
    decode bytes = .ok text ↔ bytes = text.flatMap String.utf8EncodeChar := by
  constructor
  · intro h
    obtain ⟨more, rfl, hmore⟩ := eq_flatMap_of_decodeFrom h
    simpa using hmore
  · intro heq
    subst heq
    rw [decode, decodeFrom_flatMap]
    rfl

/-! ## Where decoding stops -/

/-- No character starts at the front of the bytes exactly if they are not those of a character
and more. -/
theorem first?_eq_none_iff {bytes : List UInt8} :
    first? bytes = none ↔ ∀ c rest, bytes ≠ String.utf8EncodeChar c ++ rest := by
  constructor
  · rintro h c rest rfl
    rw [first?_append] at h
    cases h
  · intro h
    cases hfirst : first? bytes with
    | none => rfl
    | some c => exact absurd (eq_append_of_first? hfirst) (h c _)

/-- Characters fill the first `k` bytes, and at the byte behind them none starts. -/
def StopsAt (bytes : List UInt8) (k : Nat) : Prop :=
  ∃ (text : List Char) (tail : List UInt8), bytes = text.flatMap String.utf8EncodeChar ++ tail ∧
    k = (text.flatMap String.utf8EncodeChar).length ∧ tail ≠ [] ∧
    ∀ c rest, tail ≠ String.utf8EncodeChar c ++ rest

/-- Characters fill the first `k` bytes, and whatever follows, none starts behind them. -/
def BreaksAt (bytes : List UInt8) (k : Nat) : Prop :=
  ∃ (text : List Char) (tail : List UInt8), bytes = text.flatMap String.utf8EncodeChar ++ tail ∧
    k = (text.flatMap String.utf8EncodeChar).length ∧
    ∀ more c rest, tail ++ more ≠ String.utf8EncodeChar c ++ rest

/-- Where no character starts whatever follows, there is a byte that rules it out. -/
theorem ne_nil_of_breaks {tail : List UInt8}
    (h : ∀ more c rest, tail ++ more ≠ String.utf8EncodeChar c ++ rest) : tail ≠ [] := by
  rintro rfl
  exact h (String.utf8EncodeChar 'a') 'a' [] rfl

/-- Where no continuation helps, decoding stops. -/
theorem BreaksAt.stopsAt {bytes : List UInt8} {k : Nat} (h : BreaksAt bytes k) :
    StopsAt bytes k := by
  obtain ⟨text, tail, hbytes, hk, hnone⟩ := h
  exact ⟨text, tail, hbytes, hk, ne_nil_of_breaks hnone,
    fun c rest heq => hnone [] c rest (by simpa using heq)⟩

/-- Characters in front are read first. -/
theorem decodeFrom_append (offset : Nat) (read text : List Char) (tail : List UInt8) :
    decodeFrom offset read (text.flatMap String.utf8EncodeChar ++ tail) =
      decodeFrom (offset + (text.flatMap String.utf8EncodeChar).length) (text.reverse ++ read)
        tail := by
  induction text generalizing offset read with
  | nil => rfl
  | cons c text ih =>
      rw [List.flatMap_cons, List.append_assoc]
      conv => lhs; unfold decodeFrom
      rw [if_neg (by simp [String.utf8EncodeChar_ne_nil])]
      split
      · next hfirst =>
        rw [first?_append] at hfirst
        cases hfirst
      · next d hfirst =>
        rw [first?_append] at hfirst
        obtain rfl := Option.some.inj hfirst
        rw [← String.length_utf8EncodeChar, List.drop_left, ih]
        simp [Nat.add_assoc]

/-- Decoding that fails stops at the offset that is told. -/
theorem stopsAt_of_decodeFrom {offset k : Nat} {read : List Char} {bytes : List UInt8}
    (h : decodeFrom offset read bytes = .error k) : ∃ j, StopsAt bytes j ∧ k = offset + j := by
  fun_induction decodeFrom offset read bytes with
  | case1 => cases h
  | case2 offset read bytes hempty hfirst =>
      cases h
      exact ⟨0, ⟨[], bytes, rfl, rfl, by simpa using hempty, first?_eq_none_iff.mp hfirst⟩, rfl⟩
  | case3 offset read bytes hempty c hfirst ih =>
      obtain ⟨j, ⟨text, tail, hrest, hj, hstops⟩, rfl⟩ := ih h
      have hbytes := eq_append_of_first? hfirst
      refine ⟨c.utf8Size + j, ⟨c :: text, tail, ?_, ?_, hstops⟩, Nat.add_assoc _ _ _⟩
      · rw [List.flatMap_cons, List.append_assoc, ← hrest]
        exact hbytes
      · rw [List.flatMap_cons, List.length_append, String.length_utf8EncodeChar, hj]

/-- **Where decoding fails**: at the first byte at which no character starts. -/
theorem decode_eq_error_iff {bytes : List UInt8} {k : Nat} :
    decode bytes = .error k ↔ StopsAt bytes k := by
  constructor
  · intro h
    obtain ⟨j, hj, rfl⟩ := stopsAt_of_decodeFrom h
    rw [Nat.zero_add]
    exact hj
  · rintro ⟨text, tail, rfl, rfl, hne, hnone⟩
    rw [decode, decodeFrom_append]
    unfold decodeFrom
    rw [if_neg (by simpa using hne)]
    split
    · rw [Nat.zero_add]
    · next c hfirst => exact absurd (eq_append_of_first? hfirst) (hnone c _)

/-- Decoding stops at one place only. -/
theorem StopsAt.unique {bytes : List UInt8} {j k : Nat} (hj : StopsAt bytes j)
    (hk : StopsAt bytes k) : j = k :=
  Except.error.inj ((decode_eq_error_iff.mpr hj).symm.trans (decode_eq_error_iff.mpr hk))

/-- Decoding stops at one place only. -/
theorem BreaksAt.unique {bytes : List UInt8} {j k : Nat} (hj : BreaksAt bytes j)
    (hk : BreaksAt bytes k) : j = k :=
  hj.stopsAt.unique hk.stopsAt

/-- **Bytes break somewhere exactly if nothing that may follow makes them UTF-8.** -/
theorem exists_breaksAt_iff {bytes : List UInt8} :
    (∃ k, BreaksAt bytes k) ↔
      ∀ (more : List UInt8) (text : List Char),
        bytes ++ more ≠ text.flatMap String.utf8EncodeChar := by
  constructor
  · rintro ⟨k, text, tail, rfl, rfl, hnone⟩ more all heq
    have hok := decode_eq_ok_iff.mpr heq
    have hstops : StopsAt (text.flatMap String.utf8EncodeChar ++ tail ++ more) _ :=
      ⟨text, tail ++ more, List.append_assoc _ _ _, rfl, ?_, hnone more⟩
    · rw [decode_eq_error_iff.mpr hstops] at hok
      cases hok
    · exact fun hnil => ne_nil_of_breaks hnone (List.append_eq_nil_iff.mp hnil).1
  · intro hhopeless
    cases hdecode : decode bytes with
    | ok text => exact absurd (decode_eq_ok_iff.mp hdecode) (by simpa using hhopeless [] text)
    | error k =>
        obtain ⟨text, tail, rfl, hk, -, hnone⟩ := decode_eq_error_iff.mp hdecode
        refine ⟨k, text, tail, rfl, hk, ?_⟩
        intro more c rest heq
        -- The bytes end inside the character, so the rest of it makes them UTF-8.
        rcases List.append_eq_append_iff.mp heq with ⟨missing, hchar, -⟩ | ⟨extra, htail, -⟩
        · refine hhopeless missing (text ++ [c]) ?_
          rw [List.append_assoc, ← hchar, List.flatMap_append, List.flatMap_singleton]
        · exact hnone c extra htail

/-- Bytes that do not decode stop doing so at one of them. -/
theorem lt_of_decode_eq_error {k : Nat} {bytes : List UInt8} (h : decode bytes = .error k) :
    k < bytes.length := by
  obtain ⟨text, tail, rfl, rfl, hne, -⟩ := decode_eq_error_iff.mp h
  rw [List.length_append]
  exact Nat.lt_add_of_pos_right (List.length_pos_iff.mpr hne)

/-! ## ASCII -/

/-- An ASCII character keeps its number as a byte. -/
theorem toNat_toUInt8 {c : Char} (h : c.toNat < 128) : c.toUInt8.toNat = c.toNat := by
  show c.val.toNat % 256 = c.val.toNat
  have : c.val.toNat < 128 := h
  omega

/-- An ASCII character is one byte. -/
theorem encodeChar_of_lt {c : Char} (h : c.toNat < 128) :
    String.utf8EncodeChar c = [c.toUInt8] := by
  have hle : c.val.toNat ≤ 0x7f := Nat.le_of_lt_succ h
  simp only [String.utf8EncodeChar, if_pos hle]
  rfl

/-- Characters beyond ASCII have no ASCII byte. -/
theorem le_of_mem_encodeChar {c : Char} (h : 128 ≤ c.toNat) {b : UInt8}
    (hb : b ∈ String.utf8EncodeChar c) : 128 ≤ b.toNat := by
  have hgt : ¬c.val.toNat ≤ 0x7f := Nat.not_le_of_lt h
  simp only [String.utf8EncodeChar, if_neg hgt] at hb
  split at hb
  · simp only [List.mem_cons, List.not_mem_nil, or_false] at hb
    rcases hb with rfl | rfl <;> simp only [UInt8.toNat_ofNat'] <;> omega
  split at hb
  · simp only [List.mem_cons, List.not_mem_nil, or_false] at hb
    rcases hb with rfl | rfl | rfl <;> simp only [UInt8.toNat_ofNat'] <;> omega
  · simp only [List.mem_cons, List.not_mem_nil, or_false] at hb
    rcases hb with rfl | rfl | rfl | rfl <;> simp only [UInt8.toNat_ofNat'] <;> omega

/-- The bytes from `0xF8` on are part of no character. -/
theorem lt_of_mem_encodeChar {c : Char} {b : UInt8} (hb : b ∈ String.utf8EncodeChar c) :
    b.toNat < 248 := by
  simp only [String.utf8EncodeChar] at hb
  split at hb
  · simp only [List.mem_cons, List.not_mem_nil, or_false] at hb
    rcases hb with rfl
    simp only [UInt8.toNat_ofNat']
    omega
  split at hb
  · simp only [List.mem_cons, List.not_mem_nil, or_false] at hb
    rcases hb with rfl | rfl <;> simp only [UInt8.toNat_ofNat'] <;> omega
  split at hb
  · simp only [List.mem_cons, List.not_mem_nil, or_false] at hb
    rcases hb with rfl | rfl | rfl <;> simp only [UInt8.toNat_ofNat'] <;> omega
  · simp only [List.mem_cons, List.not_mem_nil, or_false] at hb
    rcases hb with rfl | rfl | rfl | rfl <;> simp only [UInt8.toNat_ofNat'] <;> omega

/-- An ASCII byte in the bytes of a character is the whole character. -/
theorem encodeChar_of_mem_of_lt {c : Char} {b : UInt8} (hb : b ∈ String.utf8EncodeChar c)
    (hlt : b.toNat < 128) : String.utf8EncodeChar c = [b] ∧ c.toNat = b.toNat := by
  by_cases hc : c.toNat < 128
  · rw [encodeChar_of_lt hc, List.mem_singleton] at hb
    rw [hb, toNat_toUInt8 hc]
    exact ⟨encodeChar_of_lt hc, rfl⟩
  · have := le_of_mem_encodeChar (Nat.le_of_not_lt hc) hb
    omega

/-- An ASCII byte is a character. -/
theorem encodeChar_ofUInt8 {b : UInt8} (h : b.toNat < 128) :
    String.utf8EncodeChar (Char.ofUInt8 b) = [b] := by
  have hlt : (Char.ofUInt8 b).toNat < 128 := h
  rw [encodeChar_of_lt hlt]
  exact congrArg (fun d => [d]) (UInt8.toNat_inj.mp (toNat_toUInt8 hlt))

/-- No character goes on into an ASCII byte, so in front of one the bytes break where decoding
stops. -/
theorem breaksAt_concat_iff {bytes : List UInt8} {b : UInt8} {k : Nat} (hb : b.toNat < 128) :
    BreaksAt (bytes ++ [b]) k ↔ StopsAt bytes k := by
  constructor
  · rintro ⟨text, tail, hall, hk, hnone⟩
    obtain ⟨init, last, rfl⟩ :=
      (List.eq_nil_or_concat tail).resolve_left (ne_nil_of_breaks hnone)
    rw [List.concat_eq_append, ← List.append_assoc] at hall
    obtain ⟨hbytes, hlast⟩ := List.append_inj' hall rfl
    obtain rfl := (List.cons.inj hlast).1
    refine ⟨text, init, hbytes, hk, ?_, ?_⟩
    · rintro rfl
      exact hnone [] (Char.ofUInt8 b) [] (by rw [encodeChar_ofUInt8 hb]; rfl)
    · rintro c rest rfl
      exact hnone [] c (rest ++ [b]) (by simp)
  · rintro ⟨text, tail, rfl, hk, hne, hnone⟩
    refine ⟨text, tail ++ [b], by simp, hk, ?_⟩
    intro more c rest heq
    rw [List.append_assoc] at heq
    rcases List.append_eq_append_iff.mp heq with ⟨missing, hchar, hover⟩ | ⟨extra, htail, -⟩
    · cases missing with
      | nil => exact hnone c [] (by simpa using hchar.symm)
      | cons d missing =>
          obtain rfl := (List.cons.inj hover).1
          have hone := (encodeChar_of_mem_of_lt (c := c) (by rw [hchar]; simp) hb).1
          rw [hone] at hchar
          cases tail with
          | nil => exact hne rfl
          | cons _ tail => simpa using (List.cons.inj hchar).2
    · exact hnone c extra htail

end RecordFilter.Utf8

namespace RecordFilter

/-! ## Letters, digits and names -/

/-- Letters are two ranges of bytes. -/
theorem Byte.isLetter_iff {b : UInt8} :
    Byte.isLetter b = true ↔
      (65 ≤ b.toNat ∧ b.toNat ≤ 90) ∨ (97 ≤ b.toNat ∧ b.toNat ≤ 122) := by
  simp [Byte.isLetter, UInt8.le_iff_toNat_le]

theorem Byte.isDigit_iff {b : UInt8} :
    Byte.isDigit b = true ↔ 48 ≤ b.toNat ∧ b.toNat ≤ 57 := by
  simp [Byte.isDigit, UInt8.le_iff_toNat_le]

theorem isAlpha_iff {c : Char} :
    c.isAlpha = true ↔
      (65 ≤ c.toNat ∧ c.toNat ≤ 90) ∨ (97 ≤ c.toNat ∧ c.toNat ≤ 122) := by
  have hranges : c.isAlpha = (decide (c.val ≥ 'A'.val ∧ c.val ≤ 'Z'.val) ||
      (decide (c.val ≥ 'a'.val) && decide (c.val ≤ 'z'.val))) := rfl
  rw [hranges]
  simp [UInt32.le_iff_toNat_le]

/-- The bytes of a name are letters. -/
theorem IsName.letters_encode {name : String} (h : IsName name) :
    ∀ b ∈ Utf8.encode name, Byte.isLetter b = true := by
  intro b hb
  rw [Utf8.encode_eq_flatMap] at hb
  obtain ⟨c, hc, hbc⟩ := List.mem_flatMap.mp hb
  have halpha := isAlpha_iff.mp (h.letters c hc)
  have hlt : c.toNat < 128 := by omega
  rw [Utf8.encodeChar_of_lt hlt, List.mem_singleton] at hbc
  rw [hbc, Byte.isLetter_iff, Utf8.toNat_toUInt8 hlt]
  exact halpha

/-- A name has a first byte. -/
theorem IsName.encode_ne_nil {name : String} (h : IsName name) : Utf8.encode name ≠ [] := by
  intro hnil
  have htext := Utf8.decode_encode name
  rw [hnil] at htext
  have hname : name.toList = [] := by
    have : Utf8.decode [] = .ok [] := Utf8.decode_eq_ok_iff.mpr rfl
    rw [this] at htext
    exact (Except.ok.inj htext).symm
  exact h.nonempty (String.toList_eq_nil_iff.mp hname)

/-- Letters are the bytes of the characters that they are the codes of. -/
theorem flatMap_letters {letters : List UInt8} (h : ∀ b ∈ letters, Byte.isLetter b = true) :
    (letters.map Char.ofUInt8).flatMap String.utf8EncodeChar = letters := by
  induction letters with
  | nil => rfl
  | cons b letters ih =>
      have hb := Byte.isLetter_iff.mp (h b List.mem_cons_self)
      rw [List.map_cons, List.flatMap_cons, Utf8.encodeChar_ofUInt8 (by omega),
        ih (fun c hc => h c (List.mem_cons_of_mem b hc))]
      rfl

/-- A run of letters spells a name. -/
theorem exists_name_of_letters {letters : List UInt8} (hne : letters ≠ [])
    (h : ∀ b ∈ letters, Byte.isLetter b = true) :
    ∃ name, IsName name ∧ Utf8.encode name = letters := by
  refine ⟨String.ofList (letters.map Char.ofUInt8), ⟨?_, ?_⟩, ?_⟩
  · intro hempty
    have := congrArg String.toList hempty
    simp [hne] at this
  · intro c hc
    rw [String.toList_ofList] at hc
    obtain ⟨b, hb, rfl⟩ := List.mem_map.mp hc
    exact isAlpha_iff.mpr (Byte.isLetter_iff.mp (h b hb))
  · rw [Utf8.encode_ofList, flatMap_letters h]

/-- The bytes of a text are read as that text. -/
theorem readName_encode (start : Nat) (name : String) (part : Part) :
    readName start (Utf8.encode name) part = .ok name := by
  rw [readName, Utf8.decode_encode]
  simp

end RecordFilter
