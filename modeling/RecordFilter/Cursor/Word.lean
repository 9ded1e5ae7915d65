import RecordFilter.Cursor

/-!
# Cursors in machine words

A cursor as a machine keeps it: a source, and in one word of 64 bits each the offset of the
next byte and the offset where the window ends.  All arithmetic is done on such words.  A sum
may carry, a difference may borrow, bounds may come in the wrong order, and a range may lie
outside the source.  Where an operation has an answer to this, it is given here: a sum
saturates, or no byte is ahead.  Where it has none, the operation is `none` and the machine
stops.

A request is one operation with its arguments.  Both kinds of cursor answer requests, and a
run answers one request after another and keeps what the cursor is behind each.

* `add?_eq_some_iff` — a sum that does not carry is the sum of the numbers;
* `lt_of_peekAt?` — the byte under a cursor lies in front of the end of its window.
-/

namespace RecordFilter

/-! ## Arithmetic on words -/

namespace Word

/-- The sum of two words, unless it carries. -/
def add? (a b : UInt64) : Option UInt64 := if a + b < a then none else some (a + b)

/-- The sum of two words, or the greatest word where it carries. -/
def addSaturating (a b : UInt64) : UInt64 := (add? a b).getD (UInt64.ofNat (UInt64.size - 1))

/-- The difference of two words, unless it borrows. -/
def sub? (a b : UInt64) : Option UInt64 := if b ≤ a then some (a - b) else none

/-- The word nearest to `a` between two bounds, unless these are in the wrong order. -/
def clamp? (a low high : UInt64) : Option UInt64 :=
  if low ≤ high then some (if a < low then low else if high < a then high else a) else none

/-- The bytes from `start` to `stop`, unless these are no range of the bytes. -/
def cut? (bytes : List UInt8) (start stop : UInt64) : Option (List UInt8) :=
  if start ≤ stop ∧ stop.toNat ≤ bytes.length then
    some ((bytes.take stop.toNat).drop start.toNat)
  else none

/-- A sum that does not carry is the sum of the numbers. -/
theorem add?_eq_some_iff {a b c : UInt64} :
    add? a b = some c ↔ c.toNat = a.toNat + b.toNat := by
  have hsum := UInt64.toNat_add a b
  have ha := a.toNat_lt
  have hb := b.toNat_lt
  have hc := c.toNat_lt
  unfold add?
  split
  · next hcarry =>
      rw [UInt64.lt_iff_toNat_lt] at hcarry
      constructor
      · intro h
        cases h
      · intro h
        omega
  · next hcarry =>
      rw [UInt64.lt_iff_toNat_lt] at hcarry
      rw [Option.some.injEq, ← UInt64.toNat_inj]
      omega

end Word

/-! ## The cursor -/

/-- A cursor over a source, as two offsets of one word each. -/
structure WordCursor where
  source : List UInt8
  pos : UInt64
  stop : UInt64
deriving DecidableEq

namespace WordCursor

/-- The cursor over all of `source`. -/
def new (source : List UInt8) : WordCursor := ⟨source, 0, UInt64.ofNat source.length⟩

/-- The cursor over the bytes of `source` from `start` to `stop`. -/
def window (source : List UInt8) (start stop : UInt64) : WordCursor :=
  let stop := min stop (UInt64.ofNat source.length)
  ⟨source, min start stop, stop⟩

variable (c : WordCursor)

/-- Whether nothing is left in the window. -/
def atEnd : Bool := decide (c.stop ≤ c.pos)

/-- The byte `n` places ahead, if it is inside the window. -/
def peekAt? (n : UInt64) : Option UInt8 := do
  let place ← Word.add? c.pos n
  if place < c.stop then c.source[place.toNat]? else none

/-- The number of bytes that are left in the window. -/
def remaining? : Option UInt64 := Word.sub? c.stop c.pos

/-- The cursor `n` bytes on, or at the end of its window if there are fewer. -/
def advance (n : UInt64) : WordCursor :=
  { c with pos := min (Word.addSaturating c.pos n) c.stop }

/-- The cursor at offset `target`, or at the nearer end of what it may still reach. -/
def advanceTo? (target : UInt64) : Option WordCursor := do
  let place ← Word.clamp? target c.pos c.stop
  return { c with pos := place }

/-- The byte under a cursor lies in front of the end of its window. -/
theorem lt_of_peekAt? {c : WordCursor} {b : UInt8} (h : c.peekAt? 0 = some b) :
    c.pos.toNat < c.stop.toNat := by
  simp only [peekAt?, Option.bind_eq_bind, Option.bind_eq_some_iff] at h
  obtain ⟨place, hplace, h⟩ := h
  have hsum := Word.add?_eq_some_iff.mp hplace
  split at h
  · next hlt =>
      rw [UInt64.lt_iff_toNat_lt] at hlt
      have hzero : (0 : UInt64).toNat = 0 := rfl
      omega
  · cases h

/-- The cursor after as many single steps as there are bytes in front that satisfy `p`. -/
def stepWhile? (c : WordCursor) (p : UInt8 → Bool) : Option WordCursor :=
  match _hpeek : c.peekAt? 0 with
  | none => some c
  | some b =>
      if p b then
        match _hnext : Word.add? c.pos 1 with
        | none => none
        | some next => stepWhile? { c with pos := next } p
      else some c
termination_by c.stop.toNat - c.pos.toNat
decreasing_by
  have hlt := lt_of_peekAt? _hpeek
  have hsum := Word.add?_eq_some_iff.mp _hnext
  have hone : (1 : UInt64).toNat = 1 := rfl
  show c.stop.toNat - next.toNat < c.stop.toNat - c.pos.toNat
  omega

/-- The cursor after the longest run of bytes that satisfy `p`, with the length of that
run. -/
def skipRun? (p : UInt8 → Bool) : Option (UInt64 × WordCursor) := do
  let d ← c.stepWhile? p
  let count ← Word.sub? d.pos c.pos
  return (count, d)

/-- The bytes of the source from `start` to `stop`, both cut to the end of the window. -/
def slice? (start stop : UInt64) : Option (List UInt8) :=
  let stop := min stop c.stop
  Word.cut? c.source (min start stop) stop

end WordCursor

/-! ## Requests -/

namespace Cursor

/-- An operation of a cursor, with its arguments. -/
inductive Request where
  | atEnd
  | peekAt (n : UInt64)
  | remaining
  | advance (n : UInt64)
  | advanceTo (target : UInt64)
  | skipRun (p : UInt8 → Bool)
  | slice (start stop : UInt64)

/-- What an operation of a cursor tells. -/
inductive Answer where
  | nothing
  | truth (b : Bool)
  | byte (b : Option UInt8)
  | count (n : Nat)
  | bytes (bs : List UInt8)
deriving DecidableEq

/-- What a cursor answers to a request, and the cursor behind it. -/
def perform (c : Cursor) : Request → Answer × Cursor
  | .atEnd => (.truth c.atEnd, c)
  | .peekAt n => (.byte (c.peekAt? n.toNat), c)
  | .remaining => (.count c.remaining, c)
  | .advance n => (.nothing, c.advance n.toNat)
  | .advanceTo target => (.nothing, c.advanceTo target.toNat)
  | .skipRun p => (.count (c.skipRun p).1, (c.skipRun p).2)
  | .slice start stop => (.bytes (c.slice start.toNat stop.toNat), c)

/-- The answers to requests in turn, each with the cursor behind it. -/
def run (c : Cursor) : List Request → List (Answer × Cursor)
  | [] => []
  | r :: rs => c.perform r :: run (c.perform r).2 rs

end Cursor

namespace WordCursor

open Cursor (Request Answer)

/-- What a cursor in words answers to a request, and the cursor behind it. -/
def perform? (c : WordCursor) : Request → Option (Answer × WordCursor)
  | .atEnd => some (.truth c.atEnd, c)
  | .peekAt n => some (.byte (c.peekAt? n), c)
  | .remaining => do return (.count (← c.remaining?).toNat, c)
  | .advance n => some (.nothing, c.advance n)
  | .advanceTo target => do return (.nothing, ← c.advanceTo? target)
  | .skipRun p => do
      let (count, d) ← c.skipRun? p
      return (.count count.toNat, d)
  | .slice start stop => do return (.bytes (← c.slice? start stop), c)

/-- The answers to requests in turn, each with the cursor behind it.  A request without an
answer ends all. -/
def run? (c : WordCursor) : List Request → Option (List (Answer × WordCursor))
  | [] => some []
  | r :: rs => do
      let first ← c.perform? r
      let others ← run? first.2 rs
      return first :: others

end WordCursor

end RecordFilter
