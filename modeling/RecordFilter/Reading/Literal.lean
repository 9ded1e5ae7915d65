import RecordFilter.Query.Value
import RecordFilter.Reading.Basic

/-!
# Reading literals

A literal is read by the kind that its first byte announces: a quote opens a string, a
minus sign or a digit starts a number, and a letter starts a truth value.  Behind it
must come a delimiter of the place where it stands, or the end of the window.

* `length_read_lt` — a literal that is read takes at least one byte.
-/

namespace RecordFilter

/-- Where a literal stands: behind the operator of a comparison, or among the
arguments of a function. -/
inductive Place where
  | operand
  | argument
deriving DecidableEq

namespace Place

/-- Whether a byte ends a literal at this place. -/
def isDelimiter : Place → UInt8 → Bool
  | operand, b => b == Byte.space
  | argument, b => b == Byte.space || b == Byte.comma || b == Byte.closeParen

/-- The part of the expression that a literal at this place belongs to. -/
def part : Place → Part
  | operand => .value
  | argument => .call

end Place

namespace Literal

variable (place : Place)

/-- Fails where a digit has to stand and does not. -/
def missingDigit (w : Window) : Reading Value :=
  if w.atEnd then w.truncated place.part "a digit"
  else w.failure .invalidLiteral place.part "a digit"

/-- The integer of a sign and digits, if it has 64 bits. -/
def integer? (negative : Bool) (digits : List UInt8) : Option Int64 :=
  let n : Int := Byte.natOfDigits digits
  let n := if negative then -n else n
  if -0x8000000000000000 ≤ n ∧ n ≤ 0x7FFFFFFFFFFFFFFF then some (Int64.ofInt n) else none

/-- Fails because the number that starts at offset `start` is out of range. -/
def outOfRange (start : Nat) : Reading Value :=
  .error ⟨.invalidLiteral, start, place.part, "a number in range"⟩

/-- Reads the digits behind the point of the decimal that starts at offset `start`
with the digits `whole`. -/
def fraction (start : Nat) (negative : Bool) (whole : List UInt8) (w : Window) :
    Reading Value :=
  let digits := w.run Byte.isDigit
  let after := w.skipWhile Byte.isDigit
  let x := Binary64.ofDigits negative whole digits
  if digits.isEmpty then missingDigit place after
  else if x.isFinite then .ok (.decimal x, after)
  else outOfRange place start

/-- Reads the digits of the number that starts at offset `start`.  Digits alone make an
integer, and digits around a point a decimal. -/
def digits (start : Nat) (negative : Bool) (w : Window) : Reading Value :=
  let whole := w.run Byte.isDigit
  let after := w.skipWhile Byte.isDigit
  if whole.isEmpty then missingDigit place after
  else if after.peek? = some Byte.dot then fraction place start negative whole (after.skip 1)
  else
    match integer? negative whole with
    | some n => .ok (.integer n, after)
    | none => outOfRange place start

/-- Reads a number, which may have a minus sign. -/
def number (w : Window) : Reading Value :=
  if w.peek? = some Byte.minus then digits place w.pos true (w.skip 1)
  else digits place w.pos false w

/-- Reads `true` or `false`, in any case. -/
def boolean (w : Window) : Reading Value :=
  let word := w.run Byte.isLetter
  if Byte.spells ['t', 'r', 'u', 'e'] word then
    .ok (.boolean true, w.skipWhile Byte.isLetter)
  else if Byte.spells ['f', 'a', 'l', 's', 'e'] word then
    .ok (.boolean false, w.skipWhile Byte.isLetter)
  else w.failure .invalidLiteral place.part Hint.value

/-- Whether a byte may follow a backslash inside a string. -/
def isEscapable (b : UInt8) : Bool :=
  b == Byte.quote || b == Byte.backslash || b == 'n'.toUInt8 || b == 't'.toUInt8

/-- What is expected where a string does not end. -/
def quoteHint : String := "a closing `\"`"

/-- Reads the body of a string up to the closing quote and past it, from offset `pos`
on and with the bytes `read` of the body, reversed, behind us.  A byte that a
backslash escapes does not close the string. -/
def body (pos : Nat) (read : List UInt8) : List UInt8 → Reading (List UInt8)
  | [] => .error ⟨.truncatedInput, pos, place.part, quoteHint⟩
  | b :: rest =>
      if b = Byte.quote then .ok (read.reverse, ⟨pos + 1, rest⟩)
      else if b = Byte.backslash then
        match rest with
        | [] => .error ⟨.truncatedInput, pos + 1, place.part, quoteHint⟩
        | e :: rest =>
            if isEscapable e then body (pos + 2) (e :: b :: read) rest
            else .error ⟨.invalidLiteral, pos, place.part, "one of \\\", \\\\, \\n, \\t"⟩
      else body (pos + 1) (b :: read) rest

/-- Reads a string whose opening quote is behind us.  Its body has to be UTF-8, and is
the text itself if there is no escape in it. -/
def string (opened : Window) : Reading Value :=
  match body place opened.pos [] opened.rest with
  | .error e => .error e
  | .ok (bytes, after) =>
      match Utf8.decode bytes with
      | .ok raw =>
          let text := if Byte.backslash ∈ bytes then Quoted.unescape raw else raw
          .ok (.string (String.ofList text), after)
      | .error offset =>
          .error ⟨.invalidLiteral, opened.pos + offset, place.part, "valid UTF-8 in the string"⟩

/-- Reads a literal by its first byte, without a look at what follows it. -/
def unended (w : Window) : Reading Value :=
  match w.rest with
  | [] => w.truncated place.part Hint.value
  | b :: rest =>
      if b = Byte.quote then string place ⟨w.pos + 1, rest⟩
      else if b = Byte.minus ∨ Byte.isDigit b then number place w
      else if Byte.isLetter b then boolean place w
      else if b = Byte.closeParen ∧ place = .operand then
        w.failure .unmatchedGrouping place.part Hint.value
      else w.failure .unexpectedByte place.part Hint.value

/-- What is expected behind a literal. -/
def delimiterHint : String := "a space or end of input after the value"

/-- Passes a literal on if a delimiter or the end of the window follows it. -/
def ended (value : Value) (after : Window) : Reading Value :=
  match after.rest with
  | [] => .ok (value, after)
  | b :: _ =>
      if place.isDelimiter b then .ok (value, after)
      else if b = Byte.closeParen then
        after.failure .unmatchedGrouping place.part delimiterHint
      else after.failure .invalidLiteral place.part delimiterHint

/-- Reads a literal. -/
def read (w : Window) : Reading Value :=
  match unended place w with
  | .error e => .error e
  | .ok (value, after) => ended place value after

variable {place : Place}

/-- A body is read off the front of the bytes. -/
theorem length_body_lt {pos : Nat} {read bytes content : List UInt8} {after : Window}
    (h : body place pos read bytes = .ok (content, after)) :
    after.rest.length < bytes.length := by
  fun_induction body place pos read bytes <;> grind

/-- A missing digit is always an error. -/
theorem missingDigit_ne_ok (w : Window) (r : Value × Window) : missingDigit place w ≠ .ok r := by
  unfold missingDigit Window.truncated Window.failure
  split <;> simp

/-- The digits behind a point are read off the front of the window. -/
theorem length_fraction_lt {start : Nat} {negative : Bool} {whole : List UInt8}
    {w after : Window} {value : Value}
    (h : fraction place start negative whole w = .ok (value, after)) :
    after.rest.length < w.rest.length := by
  unfold fraction at h
  dsimp only at h
  split at h
  · exact absurd h (missingDigit_ne_ok _ _)
  · next hdigits =>
    split at h
    · cases h
      exact Window.length_skipWhile_lt hdigits
    · cases h

/-- The digits of a number are read off the front of the window. -/
theorem length_digits_lt {start : Nat} {negative : Bool} {w after : Window} {value : Value}
    (h : digits place start negative w = .ok (value, after)) :
    after.rest.length < w.rest.length := by
  unfold digits at h
  dsimp only at h
  split at h
  · exact absurd h (missingDigit_ne_ok _ _)
  · next hwhole =>
    have hlt := Window.length_skipWhile_lt hwhole
    split at h
    · have hskip := length_fraction_lt h
      simp only [Window.skip, List.length_drop] at hskip
      omega
    · split at h
      · cases h
        exact hlt
      · cases h

/-- A number takes at least a digit. -/
theorem length_number_lt {w after : Window} {value : Value}
    (h : number place w = .ok (value, after)) : after.rest.length < w.rest.length := by
  unfold number at h
  split at h
  · have hlt := length_digits_lt h
    simp only [Window.skip, List.length_drop] at hlt
    omega
  · exact length_digits_lt h

/-- A truth value takes at least a letter. -/
theorem length_boolean_lt {w after : Window} {value : Value}
    (h : boolean place w = .ok (value, after)) : after.rest.length < w.rest.length := by
  unfold boolean Window.failure at h
  dsimp only at h
  split at h
  · next htrue =>
    cases h
    exact Window.length_skipWhile_lt (Byte.not_isEmpty_of_spells htrue (by simp))
  · split at h
    · next hfalse =>
      cases h
      exact Window.length_skipWhile_lt (Byte.not_isEmpty_of_spells hfalse (by simp))
    · cases h

/-- A string is read off the front of the window behind its opening quote. -/
theorem length_string_lt {opened after : Window} {value : Value}
    (h : string place opened = .ok (value, after)) :
    after.rest.length < opened.rest.length := by
  unfold string at h
  split at h
  · cases h
  · next hbody =>
    split at h
    · cases h
      exact length_body_lt hbody
    · cases h

/-- What ends a literal is not part of it. -/
theorem eq_of_ended {value result : Value} {w after : Window}
    (h : ended place value w = .ok (result, after)) : after = w := by
  unfold ended Window.failure at h
  grind

/-- A literal that is read takes at least one byte. -/
theorem length_read_lt {w after : Window} {value : Value}
    (h : read place w = .ok (value, after)) : after.rest.length < w.rest.length := by
  unfold read at h
  split at h
  · cases h
  · next value' after' hunended =>
    have hafter := eq_of_ended h
    subst hafter
    unfold unended Window.truncated Window.failure at hunended
    split at hunended
    · cases hunended
    · next b rest hrest =>
      split at hunended
      · have hlt := length_string_lt hunended
        rw [hrest, List.length_cons]
        exact Nat.lt_succ_of_lt hlt
      split at hunended
      · exact length_number_lt hunended
      split at hunended
      · exact length_boolean_lt hunended
      split at hunended <;> cases hunended

end Literal

end RecordFilter
