import RecordFilter.Window

/-!
# Cursors: a forward reader over part of a source

A cursor is a window of a source that it can still look back into.  It only moves
forward and never past the end of its window, whatever it is asked: a request that
would leave the window stops at its nearer bound.  Its offsets are offsets into the
source, also when the window starts in the middle of it.

* `stop_advance` — the end of a window never moves;
* `skipRun_eq_advance` — skipping a run is advancing by its length.
-/

namespace List

variable {α : Type} (p : α → Bool) (l : List α)

/-- The length of a run takes the run. -/
theorem take_length_takeWhile : l.take (l.takeWhile p).length = l.takeWhile p :=
  (prefix_iff_eq_take.mp (List.takeWhile_prefix p)).symm

/-- The length of a run drops the run. -/
theorem drop_length_takeWhile : l.drop (l.takeWhile p).length = l.dropWhile p := by
  conv => lhs; arg 2; rw [← takeWhile_append_dropWhile (p := p) (l := l)]
  exact drop_left

end List

namespace RecordFilter

/-- A window of `source`; its unread bytes are a part of the source. -/
structure Cursor extends Window where
  source : List UInt8
deriving DecidableEq

namespace Cursor

/-- The cursor over the bytes of `source` from `start` to `stop`.  Both offsets are
cut to the length of the source, and `start` to `stop`. -/
def window (source : List UInt8) (start stop : Nat) : Cursor :=
  let visible := source.take stop
  ⟨⟨(visible.take start).length, visible.drop start⟩, source⟩

/-- The cursor over all of `source`. -/
def new (source : List UInt8) : Cursor := ⟨⟨0, source⟩, source⟩

variable (c : Cursor)

/-- The number of bytes that are left in the window. -/
def remaining : Nat := c.rest.length

/-- The byte `n` places ahead, if it is inside the window. -/
def peekAt? (n : Nat) : Option UInt8 := c.rest[n]?

/-- The cursor `n` bytes on, or at the end of its window if there are fewer. -/
def advance (n : Nat) : Cursor := { c with toWindow := c.toWindow.skip n }

/-- The cursor at offset `target`.  A target behind the cursor leaves it where it
is, and one past the window moves it to the end. -/
def advanceTo (target : Nat) : Cursor := c.advance (target - c.pos)

/-- The cursor after the longest run of bytes that satisfy `p`, with the length of
that run. -/
def skipRun (p : UInt8 → Bool) : Nat × Cursor :=
  ((c.run p).length, { c with toWindow := c.toWindow.skipWhile p })

/-- The bytes of the source from `start` to `stop`.  Both offsets are cut to the end
of the window, and `start` to `stop`; bytes behind the cursor can be asked for. -/
def slice (start stop : Nat) : List UInt8 :=
  (c.source.take (min stop c.stop)).drop start

/-- Advancing leaves the end of the window where it is. -/
theorem stop_advance (n : Nat) : (c.advance n).stop = c.stop :=
  c.toWindow.stop_skip n

/-- Skipping a run is advancing by its length. -/
theorem skipRun_eq_advance (p : UInt8 → Bool) :
    (c.skipRun p).2 = c.advance (c.skipRun p).1 := by
  simp only [skipRun, advance, Window.skipWhile, Window.skip, Window.run,
    List.take_length_takeWhile, List.drop_length_takeWhile]

end Cursor

end RecordFilter
