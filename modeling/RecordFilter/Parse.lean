import RecordFilter.Reading.Machine

/-!
# Reading filter expressions

The entry points of the library: an expression is read under limits, or under the
standard ones, from bytes or from a text.
-/

namespace RecordFilter

/-- Reads a filter expression under the given limits.  The limits need not be valid. -/
def parseWith (limits : Limits) (input : List UInt8) : Except SyntaxError Query :=
  if limits.inputLength.toNat < input.length then
    .error ⟨.limitExceeded, limits.inputLength.toNat, .clause,
      "a shorter expression (see max_input_len)"⟩
  else (Machine.readWindow limits 0 ⟨0, input⟩ 0).map Prod.fst

/-- Reads a filter expression under the standard limits. -/
def parse (input : List UInt8) : Except SyntaxError Query := parseWith .standard input

/-- Reads a filter expression that is given as a text. -/
def parseText (text : String) : Except SyntaxError Query := parse (Utf8.encode text)

/-- Whether two readings came out the same: queries up to spans, errors in every
respect. -/
def sameOutcome : Except SyntaxError Query → Except SyntaxError Query → Bool
  | .ok p, .ok q => p == q
  | .error d, .error e => d == e
  | _, _ => false

end RecordFilter
