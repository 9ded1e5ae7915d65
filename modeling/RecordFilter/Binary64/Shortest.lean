import RecordFilter.Binary64.Nearest

/-!
# The shortest decimal text of a binary64 number

A finite number is written with the fewest significant digits that read back as the
same number, never with an exponent and always with digits on both sides of the
point.

A half has one decimal digit behind the point, a quarter two, and so on, so every
finite number is a whole number of *places* `10 ^ (-p)` for some `p`, its precision.
A text of `n` significant digits is a multiple of a power of ten of places, and only
the two multiples around the number can be the nearest.

* `accepts_of_shortest?` — the search only picks digits that its reader accepts;
* `nearestMagnitude_of_shortest?` — so the digits of a number read back.
-/

namespace RecordFilter.Binary64

/-- The multiple of `step` next to `exact` that the reader accepts.  Of two the
nearer is taken, and the upper one if they are equally near. -/
def onGrid? (accepts : Nat → Bool) (exact step : Nat) : Option Nat :=
  let below := exact / step * step
  let above := below + step
  match accepts below, accepts above with
  | true, true => some (if exact - below < above - exact then below else above)
  | true, false => some below
  | false, true => some above
  | false, false => none

/-- The number nearest to `exact` among those of the fewest significant digits that
the reader accepts.  Up to 17 digits are tried, which tell all binary64 numbers
apart. -/
def shortest? (accepts : Nat → Bool) (exact : Nat) : Option Nat :=
  let width := (Nat.toDigits 10 exact).length
  (List.range 17).findSome? fun n => onGrid? accepts exact (Nat.pow 10 (width - (n + 1)))

/-- How many decimal digits behind the point the finite number with this magnitude
has at most. -/
def precision (magnitude : Nat) : Nat := 1074 - scale magnitude

/-- How many places make one, at the given precision. -/
def placesPerOne (precision : Nat) : Nat := Nat.pow 10 precision

/-- How many places the finite number with this magnitude has, at its precision. -/
def places (magnitude : Nat) : Nat :=
  significand magnitude * Nat.pow 2 (scale magnitude - 1074) * Nat.pow 5 (precision magnitude)

/-- Whether a number of places is read as the number with this magnitude. -/
def readsAs (magnitude count : Nat) : Bool :=
  nearestMagnitude count (placesPerOne (precision magnitude)) == magnitude

/-- The places that are written for the finite number with this magnitude. -/
def writtenPlaces (magnitude : Nat) : Nat :=
  (shortest? (readsAs magnitude) (places magnitude)).getD (places magnitude)

/-- The digits behind the point that write `rest` places, without the zeros at the
end but for the first digit. -/
def fractionDigits (precision rest : Nat) : List Char :=
  let digits := Nat.toDigits 10 rest
  let padded := List.replicate (precision - digits.length) '0' ++ digits
  match (padded.reverse.dropWhile (· == '0')).reverse with
  | [] => ['0']
  | d :: ds => d :: ds

/-- A number of places in positional notation. -/
def positional (precision count : Nat) : String :=
  String.ofList (Nat.toDigits 10 (count / placesPerOne precision) ++
    '.' :: fractionDigits precision (count % placesPerOne precision))

/-- The text of a number.  NaN has no sign, and infinity and NaN are given a
fraction as well. -/
def text (x : Binary64) : String :=
  if x.isNaN then "NaN.0"
  else
    let unsigned :=
      if x.isFinite then positional (precision x.magnitude) (writtenPlaces x.magnitude)
      else "inf.0"
    if x.isNegative then "-" ++ unsigned else unsigned

/-- A multiple that is picked is accepted. -/
theorem accepts_of_onGrid? {accepts : Nat → Bool} {exact step found : Nat}
    (h : onGrid? accepts exact step = some found) : accepts found = true := by
  unfold onGrid? at h
  dsimp only at h
  split at h
  · cases h
    split <;> assumption
  · cases h; assumption
  · cases h; assumption
  · cases h

/-- The search only picks digits that its reader accepts. -/
theorem accepts_of_shortest? {accepts : Nat → Bool} {exact found : Nat}
    (h : shortest? accepts exact = some found) : accepts found = true := by
  obtain ⟨n, _, hn⟩ := List.exists_of_findSome?_eq_some h
  exact accepts_of_onGrid? hn

/-- The digits that the search picks for a number read back as that number. -/
theorem nearestMagnitude_of_shortest? {magnitude found : Nat}
    (h : shortest? (readsAs magnitude) (places magnitude) = some found) :
    nearestMagnitude found (placesPerOne (precision magnitude)) = magnitude := by
  simpa [readsAs] using accepts_of_shortest? h

end RecordFilter.Binary64
