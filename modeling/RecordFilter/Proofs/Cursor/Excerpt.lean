import Mathlib.Data.List.Forall2
import RecordFilter.Proofs.Cursor.Word

/-!
# A window as a source of its own

A cursor over a window of a source can be compared with a cursor over nothing but the bytes of
that window.  The first stands further on in its source, always by as much as the window does,
and so the offsets that a request names are lowered by that much for the second.  Then the two
answer every request alike, although a sum may saturate for one of them and not for the other:
as numbers, neither of them gets past what its window holds.

The same comparison, with nothing lowered, is between two sources that are alike as far as a
window reaches.  It says that no byte behind the window can be seen.

* `Beside.perform?` — one request to two cursors, `Beside.run?` — all requests;
* `run?_window_excerpt` — a window beside its bytes, and beside any other source that has them.
-/

namespace RecordFilter

open Cursor (Request Answer)

/-- The request with the offsets it names lowered by `s`, and zero where they are less. -/
def Cursor.Request.lower (s : Nat) : Request → Request
  | .advanceTo target => .advanceTo (UInt64.ofNat (target.toNat - s))
  | .slice start stop =>
      .slice (UInt64.ofNat (start.toNat - s)) (UInt64.ofNat (stop.toNat - s))
  | r => r

/-- The request asks for no byte in front of offset `s`. -/
def Cursor.Request.StartsAt (s : Nat) : Request → Prop
  | .slice start _ => s ≤ start.toNat
  | _ => True

/-- A word lowered by some number is the difference. -/
theorem toNat_ofNat_sub (a : UInt64) (s : Nat) :
    (UInt64.ofNat (a.toNat - s)).toNat = a.toNat - s := by
  have ha := a.toNat_lt_size
  exact UInt64.toNat_ofNat_of_lt' (by omega)

namespace Cursor

/-- The second cursor stands in an excerpt that starts at offset `s` of what the first may
see, and the same bytes are left to both. -/
structure Beside (s : Nat) (c d : Cursor) : Prop where
  rest_eq : c.rest = d.rest
  pos_eq : c.pos = d.pos + s
  visible_eq : d.source.take d.stop = (c.source.take c.stop).drop s

variable {s : Nat} {c d : Cursor} {r : Request}

/-- Both cursors move by the same number of bytes. -/
theorem Beside.advance (h : Beside s c d) (n : Nat) : Beside s (c.advance n) (d.advance n) := by
  obtain ⟨hrest, hpos, hvisible⟩ := h
  refine ⟨?_, ?_, ?_⟩
  · show c.rest.drop n = d.rest.drop n
    rw [hrest]
  · show c.pos + (c.rest.take n).length = d.pos + (d.rest.take n).length + s
    rw [hrest, hpos]
    omega
  · rw [stop_advance, stop_advance]
    exact hvisible

/-- A slice of the excerpt is a slice of the source. -/
theorem Beside.slice_eq (h : Beside s c d) {start : Nat} (hstart : s ≤ start) (stop : Nat) :
    c.slice start stop = d.slice (start - s) (stop - s) := by
  have hstarts : start = s + (start - s) := by omega
  simp only [slice, ← List.take_take]
  rw [h.visible_eq, ← List.drop_take, List.drop_drop, ← hstarts]

/-- **One request to two cursors.** -/
theorem Beside.perform (h : Beside s c d) (hr : r.StartsAt s) :
    (d.perform (r.lower s)).1 = (c.perform r).1 ∧
      Beside s (c.perform r).2 (d.perform (r.lower s)).2 := by
  have hrest := h.rest_eq
  cases r with
  | atEnd => exact ⟨by simp [Request.lower, Cursor.perform, Window.atEnd, hrest], h⟩
  | peekAt n => exact ⟨by simp [Request.lower, Cursor.perform, peekAt?, hrest], h⟩
  | remaining => exact ⟨by simp [Request.lower, Cursor.perform, remaining, hrest], h⟩
  | advance n => exact ⟨rfl, h.advance n.toNat⟩
  | advanceTo target =>
      have hdistance : (UInt64.ofNat (target.toNat - s)).toNat - d.pos =
          target.toNat - c.pos := by
        rw [toNat_ofNat_sub, h.pos_eq]
        omega
      refine ⟨rfl, ?_⟩
      show Beside s (c.advance (target.toNat - c.pos)) (d.advance (_ - d.pos))
      rw [hdistance]
      exact h.advance _
  | skipRun p =>
      have hcount : (d.skipRun p).1 = (c.skipRun p).1 := by simp [skipRun, Window.run, hrest]
      refine ⟨congrArg Answer.count hcount, ?_⟩
      show Beside s (c.skipRun p).2 (d.skipRun p).2
      rw [skipRun_eq_advance, skipRun_eq_advance, hcount]
      exact h.advance _
  | slice start stop =>
      refine ⟨?_, h⟩
      show Answer.bytes (d.slice _ _) = Answer.bytes (c.slice _ _)
      rw [toNat_ofNat_sub, toNat_ofNat_sub, h.slice_eq hr]

/-- Nothing is lowered by zero. -/
theorem Request.lower_zero (r : Request) : r.lower 0 = r := by
  cases r <;> simp [Request.lower]

/-- Every request starts at zero or behind it. -/
theorem Request.startsAt_zero (r : Request) : r.StartsAt 0 := by
  cases r <;> simp [Request.StartsAt]

end Cursor

namespace WordCursor

/-- Two cursors in words that are in bounds and show cursors side by side. -/
structure Beside (s : Nat) (c d : WordCursor) : Prop where
  left : c.InBounds
  right : d.InBounds
  views : Cursor.Beside s c.view d.view

/-- What can be seen of two cursors besides answers: as much is left to both, and their
offsets differ by `s`. -/
structure Alike (s : Nat) (c d : WordCursor) : Prop where
  remaining_eq : d.remaining? = c.remaining?
  atEnd_eq : d.atEnd = c.atEnd
  pos_eq : c.pos.toNat = d.pos.toNat + s

variable {s : Nat} {c d : WordCursor} {source other : List UInt8}

/-- Cursors beside each other show the same bytes. -/
theorem Beside.alike (h : Beside s c d) : Alike s c d := by
  obtain ⟨hc, hcleft⟩ := h.left.remaining?_eq
  obtain ⟨hd, hdleft⟩ := h.right.remaining?_eq
  have hrest : c.unread = d.unread := h.views.rest_eq
  have hleft : d.stop - d.pos = c.stop - c.pos := by
    rw [← UInt64.toNat_inj, hcleft, hdleft, hrest]
  refine ⟨by rw [hc, hd, hleft], ?_, h.views.pos_eq⟩
  rw [h.left.atEnd_eq, h.right.atEnd_eq]
  show d.unread.isEmpty = c.unread.isEmpty
  rw [hrest]

/-- One request to two cursors in words. -/
theorem Beside.perform? {r : Request} (h : Beside s c d) (hr : r.StartsAt s) :
    ∃ a c' d', c.perform? r = some (a, c') ∧ d.perform? (r.lower s) = some (a, d') ∧
      Beside s c' d' := by
  obtain ⟨c', hc, hcview, hcmoves⟩ := h.left.perform? r
  obtain ⟨d', hd, hdview, hdmoves⟩ := h.right.perform? (r.lower s)
  obtain ⟨hanswer, hviews⟩ := h.views.perform hr
  refine ⟨_, c', d', hc, hanswer ▸ hd, hcmoves.inBounds, hdmoves.inBounds, ?_⟩
  rw [hcview, hdview]
  exact hviews

/-- **All requests to two cursors.** -/
theorem Beside.run? (h : Beside s c d) {requests : List Request}
    (hrequests : ∀ r ∈ requests, r.StartsAt s) :
    ∃ left right, c.run? requests = some left ∧
      d.run? (requests.map (Request.lower s)) = some right ∧
      List.Forall₂ (fun x y => x.1 = y.1 ∧ Alike s x.2 y.2) left right := by
  induction requests generalizing c d with
  | nil => exact ⟨[], [], rfl, rfl, .nil⟩
  | cons r requests ih =>
      obtain ⟨a, c', d', hc, hd, hbeside⟩ := h.perform? (hrequests r List.mem_cons_self)
      obtain ⟨left, right, hleft, hright, hall⟩ :=
        ih hbeside fun r' hr' => hrequests r' (List.mem_cons_of_mem r hr')
      refine ⟨(a, c') :: left, (a, d') :: right, ?_, ?_, .cons ⟨rfl, hbeside.alike⟩ hall⟩
      · rw [WordCursor.run?, hc]
        show (c'.run? requests).bind _ = _
        rw [hleft]
        rfl
      · rw [List.map_cons, WordCursor.run?, hd]
        show (d'.run? _).bind _ = _
        rw [hright]
        rfl

/-! ## Windows -/

/-- Cursors in bounds are side by side if the second may see an excerpt of what the first may
see, and stands at the same byte. -/
theorem beside_of_visible (hc : c.InBounds) (hd : d.InBounds)
    (hpos : c.pos.toNat = d.pos.toNat + s)
    (hvisible : d.source.take d.stop.toNat = (c.source.take c.stop.toNat).drop s) :
    Beside s c d := by
  have hrest : c.unread = d.unread := by
    rw [unread, unread, hvisible, List.drop_drop, hpos, Nat.add_comm]
  refine ⟨hc, hd, hrest, hpos, ?_⟩
  rw [hc.stop_view, hd.stop_view]
  exact hvisible

/-- A window is beside a source of its bytes alone. -/
theorem beside_excerpt (hfits : source.length < UInt64.size) (start stop : UInt64) :
    let e := min stop.toNat source.length
    let s := min start.toNat e
    Beside s (window source start stop) (new ((source.take e).drop s)) := by
  intro e s
  have hexcerpt : ((source.take e).drop s).length < UInt64.size := by
    rw [List.length_drop, List.length_take]
    omega
  apply beside_of_visible (inBounds_window hfits start stop) (inBounds_new hexcerpt)
  · rw [toNat_pos_window hfits]
    exact (Nat.zero_add s).symm
  · rw [toNat_stop_new hexcerpt, toNat_stop_window hfits]
    exact List.take_length

/-- A window is beside the same window of a source that has the same bytes in front of its
end. -/
theorem beside_other (hfits : source.length < UInt64.size) (hother : other.length < UInt64.size)
    (start stop : UInt64) :
    let e := min stop.toNat source.length
    other.take e = source.take e →
      Beside 0 (window source start stop) (window other start (UInt64.ofNat e)) := by
  intro e hsame
  have he : e ≤ other.length := by
    have hlength := congrArg List.length hsame
    rw [List.length_take, List.length_take] at hlength
    omega
  have hend : (UInt64.ofNat e).toNat = e := UInt64.toNat_ofNat_of_lt' (by omega)
  apply beside_of_visible (inBounds_window hfits start stop) (inBounds_window hother start _)
  · rw [toNat_pos_window hfits, toNat_pos_window hother, hend, Nat.min_eq_left he]
    rfl
  · rw [toNat_stop_window hfits, toNat_stop_window hother, hend, Nat.min_eq_left he]
    exact hsame

/-- **A window behaves as a source of its own.**  Let `e` be the end of the window and `s` its
start, both cut to the source.  Whatever requests come, as long as no slice starts in front of
`s`, the cursor over the window and the cursor over the bytes from `s` to `e`, asked with every
offset lowered by `s`, answer alike; behind every request as much is left to both, and the
offsets differ by `s`.  And without any condition, no byte at `e` or behind can be seen: a
source with other bytes there gives the same answers at the same offsets. -/
theorem run?_window_excerpt (hfits : source.length < UInt64.size) (start stop : UInt64)
    (requests : List Request) :
    let e := min stop.toNat source.length
    let s := min start.toNat e
    let w := window source start stop
    let fresh := new ((source.take e).drop s)
    ((∀ r ∈ requests, r.StartsAt s) → Alike s w fresh ∧
      ∃ left right, w.run? requests = some left ∧
        fresh.run? (requests.map (Request.lower s)) = some right ∧
        List.Forall₂ (fun x y => x.1 = y.1 ∧ Alike s x.2 y.2) left right) ∧
    ∀ other : List UInt8, other.length < UInt64.size → other.take e = source.take e →
      ∃ left right, w.run? requests = some left ∧
        (window other start (UInt64.ofNat e)).run? requests = some right ∧
        List.Forall₂ (fun x y => x.1 = y.1 ∧ Alike 0 x.2 y.2) left right := by
  intro e s w fresh
  constructor
  · intro hrequests
    have hbeside : Beside s w fresh := beside_excerpt hfits start stop
    exact ⟨hbeside.alike, hbeside.run? hrequests⟩
  · intro other hother hsame
    have hbeside := beside_other hfits hother start stop hsame
    obtain ⟨left, right, hleft, hright, hall⟩ :=
      hbeside.run? fun r (_ : r ∈ requests) => r.startsAt_zero
    have hlower : Request.lower 0 = id := funext Request.lower_zero
    rw [hlower, List.map_id] at hright
    exact ⟨left, right, hleft, hright, hall⟩

/-- In `((a))` the window of the inner group is beside a source of that group.  Two places on,
the sum with the greatest word but one carries for the first cursor and not for the second. -/
theorem run?_window_excerpt_group :
    let source := Utf8.encode "((a))"
    let far : UInt64 := UInt64.ofNat (UInt64.size - 2)
    let requests : List Request := [.advanceTo 2, .peekAt far, .advance far, .slice 1 far]
    let lowered : List Request :=
      [.advanceTo 1, .peekAt far, .advance far, .slice 0 (UInt64.ofNat (UInt64.size - 3))]
    source.length < UInt64.size ∧ (∀ r ∈ requests, r.StartsAt 1) ∧
      Word.add? 2 far = none ∧ (Word.add? 1 far).isSome ∧
      ∃ left right, (window source 1 4).run? requests = some left ∧
        (new (Utf8.encode "(a)")).run? lowered = some right ∧
        List.Forall₂ (fun x y => x.1 = y.1 ∧ Alike 1 x.2 y.2) left right := by
  intro source far requests lowered
  have hfits : source.length < UInt64.size := by decide
  have hrequests : ∀ r ∈ requests, r.StartsAt 1 := by
    simp [requests, Request.StartsAt]
  obtain ⟨-, hruns⟩ := (run?_window_excerpt hfits 1 4 requests).1 hrequests
  exact ⟨hfits, hrequests, by decide, by decide, hruns⟩

end WordCursor

end RecordFilter
