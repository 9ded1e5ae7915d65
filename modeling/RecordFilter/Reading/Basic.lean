import RecordFilter.SyntaxError
import RecordFilter.Window
import RecordFilter.Text.Utf8

/-!
# Readings

A reader takes a window and gives what it read together with the window behind it, or
says why it cannot.  Two errors are common: the byte under the reader is wrong, and
the window ends too early.
-/

namespace RecordFilter

/-- The result of reading an `α` off the front of a window. -/
abbrev Reading (α : Type) := Except SyntaxError (α × Window)

/-- What is expected where a clause has to start. -/
def Hint.clause : String := "a key or `(`"

/-- What is expected where a value has to stand. -/
def Hint.value : String := "an integer, decimal, string or boolean"

namespace Window

/-- Fails at the next byte of the window. -/
def failure {α : Type} (w : Window) (violation : Violation) (part : Part) (hint : String) :
    Except SyntaxError α :=
  .error ⟨violation, w.pos, part, hint⟩

/-- Fails at the end of the window, which came too early. -/
def truncated {α : Type} (w : Window) (part : Part) (hint : String) : Except SyntaxError α :=
  .error ⟨.truncatedInput, w.stop, part, hint⟩

end Window

/-- The name that the bytes of a part spell; they start at offset `start`. -/
def readName (start : Nat) (bytes : List UInt8) (part : Part) : Except SyntaxError String :=
  match Utf8.decode bytes with
  | .ok name => .ok (String.ofList name)
  | .error offset => .error ⟨.unexpectedByte, start + offset, part, Hint.clause⟩

end RecordFilter
