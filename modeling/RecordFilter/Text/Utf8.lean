/-!
# UTF-8: bytes and characters

A text is written as the UTF-8 bytes of its characters.  Reading goes one character
at a time and stops at the first offset where no character starts: there the bytes
are no UTF-8 sequence, or one that the end cuts short.

* `first?_append` — a character is read back whatever bytes follow it;
* `decode_encode` — the bytes of a text read back as its characters.
-/

namespace RecordFilter.Utf8

/-- The UTF-8 bytes of a text. -/
def encode (text : String) : List UInt8 := text.toByteArray.data.toList

/-- The character that starts at the front of `bytes`, if one does.  No character
takes more than four bytes. -/
def first? (bytes : List UInt8) : Option Char :=
  (bytes.take 4).toByteArray.utf8DecodeChar? 0

/-- The bytes behind a character are fewer than the bytes it starts. -/
theorem length_drop_utf8Size_lt {bytes : List UInt8} {c : Char}
    (h : first? bytes = some c) :
    (bytes.drop c.utf8Size).length < bytes.length := by
  have hc : 0 < c.utf8Size := Char.utf8Size_pos c
  cases bytes with
  | nil => simp [first?, ByteArray.utf8DecodeChar?] at h
  | cons b rest =>
      simp only [List.length_drop, List.length_cons]
      omega

/-- Reads characters until the bytes end, with the characters read so far in
reverse and the offset reached. -/
def decodeFrom (offset : Nat) (read : List Char) (bytes : List UInt8) :
    Except Nat (List Char) :=
  if bytes.isEmpty then .ok read.reverse
  else
    match _h : first? bytes with
    | none => .error offset
    | some c => decodeFrom (offset + c.utf8Size) (c :: read) (bytes.drop c.utf8Size)
termination_by bytes.length
decreasing_by exact length_drop_utf8Size_lt _h

/-- The characters that `bytes` write, or the offset of the first byte at which no
character starts. -/
def decode (bytes : List UInt8) : Except Nat (List Char) := decodeFrom 0 [] bytes

/-- The bytes of a text are those of its characters, one after the other. -/
theorem encode_eq_flatMap (text : String) :
    encode text = text.toList.flatMap String.utf8EncodeChar := by
  rw [encode, ← String.utf8Encode_toList, List.utf8Encode]
  simp

/-- The bytes of a character are read as that character, whatever follows. -/
theorem first?_append (c : Char) (rest : List UInt8) :
    first? (String.utf8EncodeChar c ++ rest) = some c := by
  have hfour : (String.utf8EncodeChar c).length ≤ 4 := by
    rw [String.length_utf8EncodeChar]
    exact Char.utf8Size_le_four c
  rw [first?, List.take_append, List.take_of_length_le hfour, List.toByteArray_append]
  exact ByteArray.utf8DecodeChar?_utf8EncodeChar_append

/-- Reading the bytes of `text` adds its characters to those read before. -/
theorem decodeFrom_flatMap (offset : Nat) (read text : List Char) :
    decodeFrom offset read (text.flatMap String.utf8EncodeChar) =
      .ok (read.reverse ++ text) := by
  induction text generalizing offset read with
  | nil => unfold decodeFrom; simp
  | cons c cs ih =>
      have hne : ((c :: cs).flatMap String.utf8EncodeChar).isEmpty = false := by
        simp [String.utf8EncodeChar_ne_nil]
      have hfirst := first?_append c (cs.flatMap String.utf8EncodeChar)
      rw [← List.flatMap_cons] at hfirst
      have hdrop : ((c :: cs).flatMap String.utf8EncodeChar).drop c.utf8Size =
          cs.flatMap String.utf8EncodeChar := by
        rw [List.flatMap_cons, ← String.length_utf8EncodeChar, List.drop_left]
      unfold decodeFrom
      simp only [hne, Bool.false_eq_true, if_false]
      split
      · next h => rw [hfirst] at h; cases h
      · next d h =>
        rw [hfirst] at h
        cases h
        rw [hdrop, ih]
        simp

/-- The bytes of a text read back as its characters. -/
theorem decode_encode (text : String) : decode (encode text) = .ok text.toList := by
  rw [encode_eq_flatMap, decode, decodeFrom_flatMap]
  rfl

end RecordFilter.Utf8
