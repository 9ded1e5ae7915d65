import RecordFilter.Byte

/-!
# Matching parentheses

The end of a group is found by a scan ahead that counts parentheses and skips strings.
Inside a string a backslash hides the byte behind it, whatever it is; whether it is a
valid escape is left to the reader of the string.

* `closing?_lt` — a closing parenthesis that is found is one of the bytes.
-/

namespace RecordFilter.Grouping

/-- Where a scan stands with regard to strings. -/
inductive Quoting where
  /-- Outside every string. -/
  | outside
  /-- Inside a string. -/
  | inside
  /-- Inside a string and behind a backslash. -/
  | hidden
deriving DecidableEq

/-- Where the scan stands behind the byte `b`. -/
def Quoting.next : Quoting → UInt8 → Quoting
  | outside, b => if b = Byte.quote then inside else outside
  | inside, b =>
      if b = Byte.backslash then hidden
      else if b = Byte.quote then outside
      else inside
  | hidden, _ => inside

/-- The offset among `bytes`, counted from `offset` on, of the parenthesis that closes
the last of `layers` open ones. -/
def closingFrom? (layers offset : Nat) (quoting : Quoting) : List UInt8 → Option Nat
  | [] => none
  | b :: bytes =>
      if quoting = .outside ∧ b = Byte.openParen then
        closingFrom? (layers + 1) (offset + 1) quoting bytes
      else if quoting = .outside ∧ b = Byte.closeParen then
        match layers with
        | 0 => none
        | 1 => some offset
        | layers + 2 => closingFrom? (layers + 1) (offset + 1) quoting bytes
      else closingFrom? layers (offset + 1) (quoting.next b) bytes

/-- The offset among `bytes` of the parenthesis that closes the one just before them. -/
def closing? (bytes : List UInt8) : Option Nat := closingFrom? 1 0 .outside bytes

/-- What the scan finds lies among the bytes that it has not seen. -/
theorem closingFrom?_lt {layers offset found : Nat} {quoting : Quoting} {bytes : List UInt8}
    (h : closingFrom? layers offset quoting bytes = some found) :
    found < offset + bytes.length := by
  fun_induction closingFrom? layers offset quoting bytes <;> grind

/-- A closing parenthesis that is found is one of the bytes. -/
theorem closing?_lt {bytes : List UInt8} {found : Nat} (h : closing? bytes = some found) :
    found < bytes.length := by
  simpa using closingFrom?_lt h

end RecordFilter.Grouping
