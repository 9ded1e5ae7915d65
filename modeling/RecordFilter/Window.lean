import RecordFilter.Byte

/-!
# Windows: the bytes that are left to read

A window is the unread part of an expression together with the absolute offset of
its first byte.  Everything that reads an expression takes a window and returns a
later one, so an offset is always an offset into the whole input, also inside a
group.

* `stop_skip` — reading never moves the end of a window;
* `length_skipWhile_le`, `length_skipSpaces_le` — reading never lengthens the rest.
-/

namespace RecordFilter

/-- The unread bytes `rest`, the first of which stands at offset `pos`. -/
structure Window where
  pos : Nat
  rest : List UInt8
deriving DecidableEq

namespace Window

/-- The offset just past the last byte of the window. -/
def stop (w : Window) : Nat := w.pos + w.rest.length

/-- Whether nothing is left to read. -/
def atEnd (w : Window) : Bool := w.rest.isEmpty

/-- The next byte, if there is one. -/
def peek? (w : Window) : Option UInt8 := w.rest.head?

/-- The window after `n` more bytes, or after all of them if there are fewer. -/
def skip (w : Window) (n : Nat) : Window :=
  ⟨w.pos + (w.rest.take n).length, w.rest.drop n⟩

/-- The longest run of bytes at the front of the window that satisfy `p`. -/
def run (w : Window) (p : UInt8 → Bool) : List UInt8 := w.rest.takeWhile p

/-- The window after its longest run of bytes that satisfy `p`. -/
def skipWhile (w : Window) (p : UInt8 → Bool) : Window :=
  ⟨w.pos + (w.run p).length, w.rest.dropWhile p⟩

/-- The window after its leading blanks. -/
def skipSpaces (w : Window) : Window := w.skipWhile Byte.isSpace

variable (w : Window)

/-- Skipping bytes leaves the end where it is. -/
theorem stop_skip (n : Nat) : (w.skip n).stop = w.stop := by
  have h := congrArg List.length (List.take_append_drop n w.rest)
  simp only [List.length_append] at h
  simp only [stop, skip]
  omega

/-- Skipping `n` bytes takes `n` bytes off the rest. -/
@[simp] theorem length_skip (n : Nat) : (w.skip n).rest.length = w.rest.length - n :=
  List.length_drop

/-- A window with a next byte is not empty. -/
theorem length_pos_of_peek? {w : Window} {b : UInt8} (h : w.peek? = some b) :
    0 < w.rest.length := by
  cases w with
  | mk pos rest => cases rest <;> simp [peek?] at h ⊢

/-- A run and what follows it are the window. -/
theorem run_append_skipWhile (p : UInt8 → Bool) :
    w.run p ++ (w.skipWhile p).rest = w.rest :=
  List.takeWhile_append_dropWhile

/-- A run that is skipped is no longer in front of the reader. -/
theorem length_run_add_length_skipWhile (p : UInt8 → Bool) :
    (w.run p).length + (w.skipWhile p).rest.length = w.rest.length := by
  rw [← List.length_append, run_append_skipWhile]

/-- Skipping a run does not lengthen the rest. -/
theorem length_skipWhile_le (p : UInt8 → Bool) :
    (w.skipWhile p).rest.length ≤ w.rest.length := by
  have h := w.length_run_add_length_skipWhile p
  omega

/-- What follows a run that is not empty is shorter. -/
theorem length_skipWhile_lt {w : Window} {p : UInt8 → Bool} (h : ¬(w.run p).isEmpty) :
    (w.skipWhile p).rest.length < w.rest.length := by
  have hsum := w.length_run_add_length_skipWhile p
  have hpos : (w.run p).length ≠ 0 := by simpa [List.length_eq_zero_iff] using h
  omega

/-- Skipping blanks does not lengthen the rest. -/
theorem length_skipSpaces_le : w.skipSpaces.rest.length ≤ w.rest.length :=
  w.length_skipWhile_le Byte.isSpace

end Window

end RecordFilter
