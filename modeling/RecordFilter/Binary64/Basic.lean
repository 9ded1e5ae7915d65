/-!
# Binary64 numbers

A decimal value is a number of the IEEE 754 format binary64, kept as its 64 bits: a
sign, 11 bits of exponent and 52 bits of fraction.  The lower 63 bits, the
*magnitude*, grow with the absolute value, so that a finite number is a whole number
of *units*, the least positive number `2 ^ (-1074)`.
-/

namespace RecordFilter

/-- A binary64 number by its bits. -/
structure Binary64 where
  bits : UInt64

namespace Binary64

/-- The number of magnitudes with one exponent, `2 ^ 52`. -/
abbrev fractions : Nat := 0x10000000000000

/-- The magnitude of infinity; the magnitudes above it are those of NaN. -/
abbrev infinityMagnitude : Nat := 0x7FF0000000000000

/-- The weight of the sign bit. -/
abbrev signWeight : Nat := 0x8000000000000000

/-- How many units make one. -/
@[irreducible] def unitsPerOne : Nat := Nat.pow 2 1074

/-- Whether the sign bit is set. -/
def isNegative (x : Binary64) : Bool := signWeight ≤ x.bits.toNat

/-- The bits without the sign bit. -/
def magnitude (x : Binary64) : Nat := x.bits.toNat % signWeight

/-- Whether the number is neither infinite nor NaN. -/
def isFinite (x : Binary64) : Bool := x.magnitude < infinityMagnitude

/-- Whether the bits are those of NaN. -/
def isNaN (x : Binary64) : Bool := infinityMagnitude < x.magnitude

/-- Numeric equality: NaN differs from everything, itself included, and the two
zeros are equal.  On all other numbers it is equality of bits. -/
def equal (x y : Binary64) : Bool :=
  !x.isNaN && !y.isNaN && (x.bits == y.bits || (x.magnitude == 0 && y.magnitude == 0))

instance : BEq Binary64 := ⟨equal⟩

/-- The number with the given sign and magnitude. -/
def ofMagnitude (negative : Bool) (magnitude : Nat) : Binary64 :=
  ⟨UInt64.ofNat (magnitude + if negative then signWeight else 0)⟩

/-- The power of two, counted from the least, that scales the significand of the
finite number with this magnitude. -/
def scale (magnitude : Nat) : Nat := magnitude / fractions - 1

/-- The significand of the finite number with this magnitude. -/
def significand (magnitude : Nat) : Nat := magnitude - scale magnitude * fractions

/-- How many units the finite number with this magnitude has. -/
def units (magnitude : Nat) : Nat := significand magnitude * Nat.pow 2 (scale magnitude)

end Binary64

end RecordFilter
