import RecordFilter.Binary64.Basic
import RecordFilter.Byte

/-!
# The nearest binary64 number

A number written with digits before and after a point is read as the binary64 number
nearest to it.  Between two numbers that are equally near the one with the even
significand is taken, and what lies too far out becomes infinite.  All of it is done
on whole numbers, so no digit of a long text is lost.
-/

namespace RecordFilter.Binary64

/-- The whole number nearest to `num / den`; of two equally near ones the even. -/
def roundHalfEven (num den : Nat) : Nat :=
  let floor := num / den
  let excess := 2 * (num % den)
  if excess < den then floor
  else if den < excess then floor + 1
  else floor + floor % 2

/-- The magnitude of the number nearest to `num / den`.

Counted in units the quotient is `scaled / den`.  Its significand keeps 53 bits, or
fewer where the units end, and is rounded at that place.  A significand that is
rounded up to 54 bits carries into the exponent, and so does the step to infinity,
because magnitudes are consecutive. -/
def nearestMagnitude (num den : Nat) : Nat :=
  let scaled := num * unitsPerOne
  let shift := (scaled / den).log2 - 52
  min infinityMagnitude (shift * fractions + roundHalfEven scaled (den * Nat.pow 2 shift))

/-- The number nearest to the one written by `whole`, a point and `fraction`, after a
minus sign if `negative`. -/
def ofDigits (negative : Bool) (whole fraction : List UInt8) : Binary64 :=
  ofMagnitude negative
    (nearestMagnitude (Byte.natOfDigits (whole ++ fraction)) (Nat.pow 10 fraction.length))

end RecordFilter.Binary64
