/-!
# Bytes of the expression language

A filter expression is a list of bytes.  Only ASCII bytes have a meaning outside
strings: letters spell names and words, digits spell numbers, and the one blank is
`0x20`.  A byte of a multi-byte character belongs to no class.
-/

namespace RecordFilter.Byte

/-- The blank, the only byte that separates. -/
abbrev space : UInt8 := 0x20

/-- The byte `!`. -/
abbrev bang : UInt8 := 0x21

/-- The byte `"`, which opens and closes strings. -/
abbrev quote : UInt8 := 0x22

/-- The byte `&`. -/
abbrev ampersand : UInt8 := 0x26

/-- The byte `(`. -/
abbrev openParen : UInt8 := 0x28

/-- The byte `)`. -/
abbrev closeParen : UInt8 := 0x29

/-- The byte `,`. -/
abbrev comma : UInt8 := 0x2C

/-- The byte `-`, the sign of a negative number. -/
abbrev minus : UInt8 := 0x2D

/-- The byte `.`. -/
abbrev dot : UInt8 := 0x2E

/-- The byte `<`. -/
abbrev less : UInt8 := 0x3C

/-- The byte `=`. -/
abbrev equals : UInt8 := 0x3D

/-- The byte `>`. -/
abbrev greater : UInt8 := 0x3E

/-- The byte `\`, which starts an escape inside a string. -/
abbrev backslash : UInt8 := 0x5C

/-- The byte `|`. -/
abbrev bar : UInt8 := 0x7C

/-- Whether a byte is the blank. -/
def isSpace (b : UInt8) : Bool := b == space

/-- Whether a byte is an ASCII letter. -/
def isLetter (b : UInt8) : Bool :=
  (0x41 ≤ b && b ≤ 0x5A) || (0x61 ≤ b && b ≤ 0x7A)

/-- Whether a byte is an ASCII digit. -/
def isDigit (b : UInt8) : Bool :=
  0x30 ≤ b && b ≤ 0x39

/-- The number that a digit stands for. -/
def digitValue (b : UInt8) : Nat := b.toNat - 0x30

/-- A capital letter becomes its small letter, and every other byte stays. -/
def lower (b : UInt8) : UInt8 :=
  if 0x41 ≤ b && b ≤ 0x5A then b + 0x20 else b

/-- Whether `bytes` spell the word `word`, given in small letters, in any case. -/
def spells (word : List Char) (bytes : List UInt8) : Bool :=
  bytes.map lower == word.map Char.toUInt8

/-- A word that is not empty is spelt by some bytes. -/
theorem not_isEmpty_of_spells {word : List Char} {bytes : List UInt8}
    (h : spells word bytes) (hword : word ≠ []) : ¬bytes.isEmpty := by
  intro hempty
  rw [List.isEmpty_iff] at hempty
  exact hword (by simpa [spells, hempty] using h)

/-- The number that a run of digits writes in base ten. -/
def natOfDigits (digits : List UInt8) : Nat :=
  digits.foldl (fun value digit => 10 * value + digitValue digit) 0

end RecordFilter.Byte
