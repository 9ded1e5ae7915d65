import Mathlib.Data.List.Chain
import RecordFilter.Cursor.Word
import RecordFilter.Text.Utf8

/-!
# A cursor in words shows what the cursor shows

The two offsets of a cursor in words are in bounds: the first is at most the second, and the
second at most the length of the source.  As long as they are, no arithmetic on them carries,
borrows or meets bounds in the wrong order, whatever words a request comes with; and every
request leaves them in bounds.  So no run of requests stops the machine, and the run is the one
of the cursor that the words show.

* `toNat_addSaturating`, `exists_clamp?` — the guarded operations on words, as numbers;
* `view_of_reaches` — moving the offset on shows what the cursor does, and `exists_stepWhile?`
  that the loop does so;
* `InBounds.perform?` — one request, `InBounds.run?` — all requests;
* `run?_stays_in_window` — what holds behind every request of every run.
-/

namespace RecordFilter

/-! ## Words as numbers -/

namespace Word

variable {a b low high start stop : UInt64} {bytes : List UInt8}

/-- An addition has no answer exactly if the sum takes more than a word. -/
theorem add?_eq_none_iff : add? a b = none ↔ UInt64.size ≤ a.toNat + b.toNat := by
  constructor
  · intro h
    by_contra hlt
    have hsum : (UInt64.ofNat (a.toNat + b.toNat)).toNat = a.toNat + b.toNat :=
      UInt64.toNat_ofNat_of_lt' (by omega)
    rw [add?_eq_some_iff.mpr hsum] at h
    cases h
  · intro h
    by_contra hsome
    obtain ⟨c, hc⟩ := Option.ne_none_iff_exists'.mp hsome
    have hsum := add?_eq_some_iff.mp hc
    have hbound := c.toNat_lt_size
    omega

/-- A sum that saturates is cut to the greatest word. -/
theorem toNat_addSaturating (a b : UInt64) :
    (addSaturating a b).toNat = min (a.toNat + b.toNat) (UInt64.size - 1) := by
  unfold addSaturating
  cases hsum : add? a b with
  | none =>
      have hcarry := add?_eq_none_iff.mp hsum
      have hgreatest : (UInt64.ofNat (UInt64.size - 1)).toNat = UInt64.size - 1 := rfl
      rw [Option.getD_none, hgreatest]
      omega
  | some c =>
      have hc := add?_eq_some_iff.mp hsum
      have hbound := c.toNat_lt_size
      rw [Option.getD_some]
      omega

/-- A subtraction has an answer if nothing is borrowed. -/
theorem sub?_of_le (h : b ≤ a) : sub? a b = some (a - b) := if_pos h

/-- Between bounds in order there is a nearest word. -/
theorem exists_clamp? (a : UInt64) (h : low ≤ high) :
    ∃ place, clamp? a low high = some place ∧
      place.toNat = max low.toNat (min a.toNat high.toNat) := by
  have hle := UInt64.le_iff_toNat_le.mp h
  rw [clamp?, if_pos h]
  refine ⟨_, rfl, ?_⟩
  by_cases hlow : a < low
  · have hlt := UInt64.lt_iff_toNat_lt.mp hlow
    rw [if_pos hlow]
    omega
  · have hge := mt UInt64.lt_iff_toNat_lt.mpr hlow
    rw [if_neg hlow]
    by_cases hhigh : high < a
    · have hlt := UInt64.lt_iff_toNat_lt.mp hhigh
      rw [if_pos hhigh]
      omega
    · have hle := mt UInt64.lt_iff_toNat_lt.mpr hhigh
      rw [if_neg hhigh]
      omega

/-- A slice has an answer if its bounds are in order and inside the bytes. -/
theorem cut?_of_le (horder : start ≤ stop) (hinside : stop.toNat ≤ bytes.length) :
    cut? bytes start stop = some ((bytes.take stop.toNat).drop start.toNat) :=
  if_pos ⟨horder, hinside⟩

end Word

namespace WordCursor

/-- The offsets are in order and inside the source. -/
structure InBounds (c : WordCursor) : Prop where
  pos_le : c.pos ≤ c.stop
  stop_le : c.stop.toNat ≤ c.source.length

/-- The bytes of the window that are still to be read. -/
def unread (c : WordCursor) : List UInt8 := (c.source.take c.stop.toNat).drop c.pos.toNat

/-- The cursor that two words show. -/
def view (c : WordCursor) : Cursor := ⟨⟨c.pos.toNat, c.unread⟩, c.source⟩

variable {c d : WordCursor} {source : List UInt8}

/-- The offset is not past the end of the window. -/
theorem InBounds.le (h : c.InBounds) : c.pos.toNat ≤ c.stop.toNat :=
  UInt64.le_iff_toNat_le.mp h.pos_le

/-- What is not read reaches from the offset to the end of the window. -/
theorem InBounds.length_unread (h : c.InBounds) :
    c.unread.length = c.stop.toNat - c.pos.toNat := by
  rw [unread, List.length_drop, List.length_take_of_le h.stop_le]

/-- The cursor that is seen ends where the window does. -/
theorem InBounds.stop_view (h : c.InBounds) : c.view.stop = c.stop.toNat := by
  have hlength := h.length_unread
  have hle := h.le
  show c.pos.toNat + c.unread.length = c.stop.toNat
  omega

/-! ## Where a cursor starts -/

/-- The window of a new cursor ends with the source. -/
theorem toNat_stop_new (hfits : source.length < UInt64.size) :
    (new source).stop.toNat = source.length :=
  UInt64.toNat_ofNat_of_lt' hfits

/-- The end of a window is cut to the length of the source. -/
theorem toNat_stop_window (hfits : source.length < UInt64.size) (start stop : UInt64) :
    (window source start stop).stop.toNat = min stop.toNat source.length := by
  rw [window, UInt64.toNat_min, UInt64.toNat_ofNat_of_lt' hfits]

/-- The start of a window is cut to its end. -/
theorem toNat_pos_window (hfits : source.length < UInt64.size) (start stop : UInt64) :
    (window source start stop).pos.toNat =
      min start.toNat (min stop.toNat source.length) := by
  rw [← toNat_stop_window hfits start stop]
  exact UInt64.toNat_min _ _

theorem inBounds_new (hfits : source.length < UInt64.size) : (new source).InBounds := by
  constructor
  · exact UInt64.le_iff_toNat_le.mpr (Nat.zero_le _)
  · exact Nat.le_of_eq (toNat_stop_new hfits)

/-- A cursor over a window is in bounds, whatever the window is asked to be. -/
theorem inBounds_window (hfits : source.length < UInt64.size) (start stop : UInt64) :
    (window source start stop).InBounds := by
  constructor
  · rw [UInt64.le_iff_toNat_le, toNat_pos_window hfits, toNat_stop_window hfits]
    exact Nat.min_le_right _ _
  · rw [toNat_stop_window hfits]
    exact Nat.min_le_right _ _

/-- A new cursor is seen as the one over the whole source. -/
theorem view_new (hfits : source.length < UInt64.size) :
    (new source).view = Cursor.new source := by
  rw [view, unread, toNat_stop_new hfits]
  show (⟨⟨0, (source.take source.length).drop 0⟩, source⟩ : Cursor) = Cursor.new source
  rw [List.take_length]
  rfl

/-- A cursor over a window is seen as the one over that window. -/
theorem view_window (hfits : source.length < UInt64.size) (start stop : UInt64) :
    (window source start stop).view = Cursor.window source start.toNat stop.toNat := by
  have hpos : min start.toNat (min stop.toNat source.length) =
      ((source.take stop.toNat).take start.toNat).length := by
    rw [List.length_take, List.length_take]
  have htake : source.take (min stop.toNat source.length) = source.take stop.toNat :=
    List.take_eq_take_min.symm
  have hdrop : ∀ l : List UInt8, l.drop (l.take start.toNat).length = l.drop start.toNat := by
    simp
  rw [view, unread, toNat_pos_window hfits, toNat_stop_window hfits]
  show (⟨⟨_, (source.take _).drop _⟩, source⟩ : Cursor) = _
  rw [htake, hpos, hdrop]
  rfl

/-! ## One step forward -/

/-- What a request may do to a cursor: its offset grows, inside the same window. -/
structure Moves (c d : WordCursor) : Prop where
  source_eq : d.source = c.source
  stop_eq : d.stop = c.stop
  le_pos : c.pos ≤ d.pos
  inBounds : d.InBounds

/-- A request that moves nothing is a move of length zero. -/
theorem InBounds.moves_self (h : c.InBounds) : Moves c c :=
  ⟨rfl, rfl, UInt64.le_refl c.pos, h⟩

/-- A word that lies as far behind the offset as `n` bytes of the window reach. -/
def Reaches (c : WordCursor) (n : Nat) (place : UInt64) : Prop :=
  place.toNat = c.pos.toNat + min n c.unread.length

/-- A cursor that is set to a word it reaches has moved there. -/
theorem InBounds.moves_of_reaches (h : c.InBounds) {n : Nat} {place : UInt64}
    (hplace : c.Reaches n place) : Moves c { c with pos := place } := by
  have hlength := h.length_unread
  have hle := h.le
  unfold Reaches at hplace
  have hback : c.pos ≤ place := UInt64.le_iff_toNat_le.mpr (by omega)
  have hfront : place ≤ c.stop := UInt64.le_iff_toNat_le.mpr (by omega)
  exact ⟨rfl, rfl, hback, hfront, h.stop_le⟩

/-- **Moving the offset on advances the cursor that is shown.** -/
theorem view_of_reaches {n : Nat} {place : UInt64} (hplace : c.Reaches n place) :
    ({ c with pos := place } : WordCursor).view = c.view.advance n := by
  have hrest : (c.source.take c.stop.toNat).drop place.toNat = c.unread.drop n := by
    rw [hplace, ← List.drop_drop]
    exact List.drop_eq_drop_min.symm
  have hpos : place.toNat = c.pos.toNat + (c.unread.take n).length := by
    rw [List.length_take]
    exact hplace
  simp only [view, unread, Cursor.advance, Window.skip, hrest]
  rw [hpos]
  rfl

/-! ## The operations -/

/-- Both cursors are at the end of their window, or neither is. -/
theorem InBounds.atEnd_eq (h : c.InBounds) : c.atEnd = c.view.atEnd := by
  have hlength := h.length_unread
  rw [Bool.eq_iff_iff, atEnd, decide_eq_true_iff, UInt64.le_iff_toNat_le]
  show c.stop.toNat ≤ c.pos.toNat ↔ c.unread.isEmpty = true
  rw [List.isEmpty_iff, ← List.length_eq_zero_iff]
  omega

/-- Looking ahead shows what is not read. -/
theorem peekAt?_eq (c : WordCursor) (n : UInt64) :
    c.peekAt? n = c.unread[n.toNat]? := by
  have hstop := c.stop.toNat_lt_size
  rw [unread, List.getElem?_drop, List.getElem?_take]
  simp only [peekAt?, Option.bind_eq_bind]
  cases hsum : Word.add? c.pos n with
  | none =>
      have hcarry := Word.add?_eq_none_iff.mp hsum
      rw [if_neg (by omega)]
      rfl
  | some place =>
      have hplace := Word.add?_eq_some_iff.mp hsum
      simp only [Option.bind_some, UInt64.lt_iff_toNat_lt, hplace]

/-- The number of bytes that are left is a word, and it is right. -/
theorem InBounds.remaining?_eq (h : c.InBounds) :
    c.remaining? = some (c.stop - c.pos) ∧ (c.stop - c.pos).toNat = c.unread.length := by
  refine ⟨Word.sub?_of_le h.pos_le, ?_⟩
  rw [UInt64.toNat_sub_of_le _ _ h.pos_le, h.length_unread]

/-- The sum that advancing saturates and cuts lies as far ahead as was asked for, or at the end
of the window. -/
theorem InBounds.reaches_advance (h : c.InBounds) (n : UInt64) :
    c.Reaches n.toNat (min (Word.addSaturating c.pos n) c.stop) := by
  have hlength := h.length_unread
  have hle := h.le
  have hstop := c.stop.toNat_lt_size
  unfold Reaches
  rw [UInt64.toNat_min, Word.toNat_addSaturating]
  omega

/-- Advancing to an offset has an answer, which lies as far ahead as the offset does. -/
theorem InBounds.exists_advanceTo? (h : c.InBounds) (target : UInt64) :
    ∃ place, c.advanceTo? target = some { c with pos := place } ∧
      c.Reaches (target.toNat - c.pos.toNat) place := by
  have hlength := h.length_unread
  have hle := h.le
  obtain ⟨place, hplace, hvalue⟩ := Word.exists_clamp? target h.pos_le
  refine ⟨place, by rw [advanceTo?, hplace]; rfl, ?_⟩
  unfold Reaches
  omega

/-- The first byte that is not read is the one no place ahead. -/
theorem head?_unread (c : WordCursor) : c.unread.head? = c.peekAt? 0 := by
  rw [peekAt?_eq, List.head?_eq_getElem?]
  rfl

/-- **The loop.**  Single steps lead behind the longest run in front, and none of them
carries. -/
theorem InBounds.exists_stepWhile? (h : c.InBounds) (p : UInt8 → Bool) :
    ∃ place, c.stepWhile? p = some { c with pos := place } ∧
      c.Reaches (c.unread.takeWhile p).length place := by
  fun_induction stepWhile? c p with
  | case1 c hpeek =>
      have hnil : c.unread = [] := List.head?_eq_none_iff.mp (c.head?_unread.trans hpeek)
      refine ⟨c.pos, rfl, ?_⟩
      rw [Reaches, hnil]
      rfl
  | case2 c b hpeek hp hnext =>
      have hlt := lt_of_peekAt? hpeek
      have hcarry := Word.add?_eq_none_iff.mp hnext
      have hstop := c.stop.toNat_lt_size
      have hone : (1 : UInt64).toNat = 1 := rfl
      omega
  | case3 c b hpeek hp next hnext ih =>
      obtain ⟨rest, hrest⟩ := List.head?_eq_some_iff.mp (c.head?_unread.trans hpeek)
      have hplace : next.toNat = c.pos.toNat + 1 := Word.add?_eq_some_iff.mp hnext
      have htail : ({ c with pos := next } : WordCursor).unread = rest := by
        rw [unread, hplace, ← List.drop_drop]
        show c.unread.drop 1 = rest
        rw [hrest]
        rfl
      have hreaches : c.Reaches 1 next := by
        rw [Reaches, hrest, hplace, List.length_cons]
        omega
      obtain ⟨place, hrun, hvalue⟩ := ih (h.moves_of_reaches hreaches).inBounds
      refine ⟨place, hrun, ?_⟩
      rw [Reaches, htail] at hvalue
      rw [Reaches, hrest, List.takeWhile_cons_of_pos hp, List.length_cons, List.length_cons]
      simp only [hplace] at hvalue
      omega
  | case4 c b hpeek hp =>
      obtain ⟨rest, hrest⟩ := List.head?_eq_some_iff.mp (c.head?_unread.trans hpeek)
      refine ⟨c.pos, rfl, ?_⟩
      rw [Reaches, hrest, List.takeWhile_cons_of_neg hp]
      rfl

/-- Skipping a run has an answer: the length of the run, and the place behind it. -/
theorem InBounds.exists_skipRun? (h : c.InBounds) (p : UInt8 → Bool) :
    ∃ count place, c.skipRun? p = some (count, { c with pos := place }) ∧
      count.toNat = (c.unread.takeWhile p).length ∧
      c.Reaches (c.unread.takeWhile p).length place := by
  obtain ⟨place, hrun, hplace⟩ := h.exists_stepWhile? p
  have hback := (h.moves_of_reaches hplace).le_pos
  refine ⟨place - c.pos, place, ?_, ?_, hplace⟩
  · rw [skipRun?, hrun]
    show (Word.sub? place c.pos).bind _ = _
    rw [Word.sub?_of_le hback]
    rfl
  · have hprefix := (List.takeWhile_prefix p (l := c.unread)).length_le
    rw [UInt64.toNat_sub_of_le _ _ hback, hplace]
    omega

/-- A slice of a cursor in bounds has an answer, whatever is asked for, and it is the slice of
the cursor that is seen. -/
theorem InBounds.slice?_eq (h : c.InBounds) (start stop : UInt64) :
    c.slice? start stop = some (c.view.slice start.toNat stop.toNat) := by
  have hstop := h.stop_le
  have hinside : min stop.toNat c.stop.toNat ≤ c.source.length := by omega
  have horder : min start (min stop c.stop) ≤ min stop c.stop := by
    rw [UInt64.le_iff_toNat_le, UInt64.toNat_min]
    exact Nat.min_le_right _ _
  have hcut : (c.source.take (min stop.toNat c.stop.toNat)).drop
      (min start.toNat (min stop.toNat c.stop.toNat)) =
      (c.source.take (min stop.toNat c.stop.toNat)).drop start.toNat := by
    conv => rhs; rw [List.drop_eq_drop_min, List.length_take_of_le hinside]
  rw [slice?, Word.cut?_of_le horder (by rwa [UInt64.toNat_min]), Cursor.slice, h.stop_view]
  simp only [UInt64.toNat_min, hcut]
  rfl

/-! ## Requests -/

open Cursor (Request Answer)

variable {k : Cursor}

/-- **One request.**  A cursor in bounds answers it as the cursor that is shown does. -/
theorem InBounds.perform? (h : c.InBounds) (r : Request) :
    ∃ d, c.perform? r = some ((c.view.perform r).1, d) ∧ d.view = (c.view.perform r).2 ∧
      Moves c d := by
  cases r with
  | atEnd =>
      refine ⟨c, ?_, rfl, h.moves_self⟩
      rw [WordCursor.perform?, h.atEnd_eq]
      rfl
  | peekAt n =>
      refine ⟨c, ?_, rfl, h.moves_self⟩
      rw [WordCursor.perform?, peekAt?_eq]
      rfl
  | remaining =>
      obtain ⟨hleft, hcount⟩ := h.remaining?_eq
      refine ⟨c, ?_, rfl, h.moves_self⟩
      rw [WordCursor.perform?, hleft]
      show some (Answer.count _, c) = _
      rw [hcount]
      rfl
  | advance n =>
      have hreaches := h.reaches_advance n
      exact ⟨c.advance n, rfl, view_of_reaches hreaches, h.moves_of_reaches hreaches⟩
  | advanceTo target =>
      obtain ⟨place, hplace, hreaches⟩ := h.exists_advanceTo? target
      refine ⟨_, ?_, view_of_reaches hreaches, h.moves_of_reaches hreaches⟩
      rw [WordCursor.perform?, hplace]
      rfl
  | skipRun p =>
      obtain ⟨count, place, hrun, hcount, hreaches⟩ := h.exists_skipRun? p
      refine ⟨_, ?_, ?_, h.moves_of_reaches hreaches⟩
      · rw [WordCursor.perform?, hrun]
        show some (Answer.count count.toNat, _) = _
        rw [hcount]
        rfl
      · rw [view_of_reaches hreaches]
        exact (c.view.skipRun_eq_advance p).symm
  | slice start stop =>
      refine ⟨c, ?_, rfl, h.moves_self⟩
      rw [WordCursor.perform?, h.slice?_eq]
      rfl

/-- **All requests.**  No run of requests stops a machine whose cursor is in bounds. -/
theorem InBounds.run? (h : c.InBounds) (requests : List Request) :
    ∃ trace, c.run? requests = some trace ∧
      trace.map (Prod.map id view) = c.view.run requests ∧
      (c :: trace.map Prod.snd).IsChain Moves := by
  induction requests generalizing c with
  | nil => exact ⟨[], rfl, rfl, .singleton c⟩
  | cons r requests ih =>
      obtain ⟨d, hanswer, hview, hmoves⟩ := h.perform? r
      obtain ⟨trace, hrun, hshown, hchain⟩ := ih hmoves.inBounds
      have hfirst : Prod.map id view ((c.view.perform r).1, d) = c.view.perform r :=
        Prod.ext rfl hview
      refine ⟨((c.view.perform r).1, d) :: trace, ?_, ?_, ?_⟩
      · rw [WordCursor.run?, hanswer]
        show (d.run? requests).bind _ = _
        rw [hrun]
        rfl
      · rw [List.map_cons, hfirst, hshown, hview]
        rfl
      · exact .cons_cons hmoves hchain

/-! ## Whole runs -/

/-- The first `n` bytes are the longest run in front of which every byte satisfies `p`. -/
structure IsLongestRun (p : UInt8 → Bool) (bytes : List UInt8) (n : Nat) : Prop where
  le_length : n ≤ bytes.length
  all : ∀ b ∈ bytes.take n, p b = true
  maximal : ∀ b, bytes[n]? = some b → p b = false

/-- The bytes that are taken while `p` holds of them are the longest run. -/
theorem isLongestRun_takeWhile (p : UInt8 → Bool) (bytes : List UInt8) :
    IsLongestRun p bytes (bytes.takeWhile p).length := by
  refine ⟨(List.takeWhile_prefix p).length_le, ?_, ?_⟩
  · intro b hb
    rw [List.take_length_takeWhile] at hb
    exact List.all_eq_true.mp List.all_takeWhile b hb
  · intro b hb
    have hhead : (bytes.dropWhile p).head? = some b := by
      rw [← List.drop_length_takeWhile, List.head?_drop]
      exact hb
    have hnot := List.head?_dropWhile_not p bytes
    rw [hhead] at hnot
    exact hnot

/-- What the operations make of the two offsets, as numbers, whatever word is asked for. -/
structure Exact (c : WordCursor) : Prop where
  /-- The difference of the offsets does not borrow. -/
  remaining : ∃ left, c.remaining? = some left ∧ c.pos.toNat + left.toNat = c.stop.toNat
  /-- The offset moves by what is asked for or by what is left, and nothing carries. -/
  advance : ∀ n, (c.advance n).pos.toNat =
    c.pos.toNat + min n.toNat (c.stop.toNat - c.pos.toNat)
  /-- The bounds are in order, and the offset is at the target or at the nearer bound. -/
  advanceTo : ∀ target, ∃ place, c.advanceTo? target = some { c with pos := place } ∧
    (c.pos ≤ target → target ≤ c.stop → place = target) ∧
    (target < c.pos → place = c.pos) ∧ (c.stop < target → place = c.stop)
  /-- A byte is ahead exactly inside the window. -/
  peekAt : ∀ n, (c.peekAt? n).isSome ↔ n.toNat < c.stop.toNat - c.pos.toNat
  /-- The loop skips the longest run, and tells its length. -/
  skipRun : ∀ p, ∃ count place, c.skipRun? p = some (count, { c with pos := place }) ∧
    place.toNat = c.pos.toNat + count.toNat ∧ IsLongestRun p c.unread count.toNat
  /-- What is cut out lies in the source. -/
  slice : ∀ start stop, (c.slice? start stop).isSome

/-- In bounds the operations on offsets are those on numbers. -/
theorem InBounds.exact (h : c.InBounds) : c.Exact := by
  have hlength := h.length_unread
  have hle := h.le
  constructor
  case remaining =>
    obtain ⟨hleft, hcount⟩ := h.remaining?_eq
    exact ⟨_, hleft, by omega⟩
  case advance =>
    intro n
    rw [← hlength]
    exact h.reaches_advance n
  case advanceTo =>
    intro target
    obtain ⟨place, hplace, hreaches⟩ := h.exists_advanceTo? target
    unfold Reaches at hreaches
    refine ⟨place, hplace, ?_⟩
    simp only [UInt64.le_iff_toNat_le, UInt64.lt_iff_toNat_lt, ← UInt64.toNat_inj]
    refine ⟨?_, ?_, ?_⟩ <;> omega
  case peekAt =>
    intro n
    rw [peekAt?_eq, ← hlength]
    simp
  case skipRun =>
    intro p
    obtain ⟨count, place, hrun, hcount, hreaches⟩ := h.exists_skipRun? p
    have hlongest := isLongestRun_takeWhile p c.unread
    refine ⟨count, place, hrun, ?_, hcount ▸ hlongest⟩
    have hrunLength := hlongest.le_length
    unfold Reaches at hreaches
    omega
  case slice =>
    intro start stop
    rw [h.slice?_eq]
    rfl

/-- A cursor over the source, in words and not, however its window was asked for. -/
inductive Made (source : List UInt8) : WordCursor → Cursor → Prop
  | new : Made source (new source) (Cursor.new source)
  | window (start stop : UInt64) :
      Made source (window source start stop) (Cursor.window source start.toNat stop.toNat)

/-- However a cursor is made, it is in bounds. -/
theorem Made.inBounds (hmade : Made source c k) (hfits : source.length < UInt64.size) :
    c.InBounds := by
  cases hmade with
  | new => exact inBounds_new hfits
  | window start stop => exact inBounds_window hfits start stop

/-- However a cursor is made, the same one is seen that is made of numbers. -/
theorem Made.view_eq (hmade : Made source c k) (hfits : source.length < UInt64.size) :
    c.view = k := by
  cases hmade with
  | new => exact view_new hfits
  | window start stop => exact view_window hfits start stop

/-- **A cursor never leaves its window.**  No sequence of requests with any words stops the
machine, and what it answers and shows is what the cursor answers and is.  From request to
request the end stays and the offset does not go back; behind every request both are in
bounds, and then every operation is exact. -/
theorem run?_stays_in_window (hfits : source.length < UInt64.size) (hmade : Made source c k)
    (requests : List Request) :
    ∃ trace, c.run? requests = some trace ∧
      trace.map (Prod.map id view) = k.run requests ∧
      (c :: trace.map Prod.snd).IsChain Moves ∧
      ∀ d ∈ c :: trace.map Prod.snd, d.InBounds ∧ d.Exact := by
  have hbounds := hmade.inBounds hfits
  obtain ⟨trace, hrun, hshown, hchain⟩ := hbounds.run? requests
  refine ⟨trace, hrun, hmade.view_eq hfits ▸ hshown, hchain, ?_⟩
  have hall : ∀ d ∈ c :: trace.map Prod.snd, d.InBounds :=
    hchain.induction InBounds _ (fun _ _ hmoves _ => hmoves.inBounds) fun _ => hbounds
  exact fun d hd => ⟨hall d hd, (hall d hd).exact⟩

/-- In a window of one byte inside `(a)` the greatest word is added to the offset and asked
for, and the offset is sent back to the start. -/
theorem run?_stays_in_window_oneByte :
    let source := Utf8.encode "(a)"
    let c := window source 1 2
    let k := Cursor.window source 1 2
    let greatest : UInt64 := UInt64.ofNat (UInt64.size - 1)
    source.length < UInt64.size ∧ Made source c k ∧
      ∃ trace, c.run? [.peekAt greatest, .advanceTo 0, .advance greatest, .remaining,
          .slice 0 greatest] = some trace ∧
        trace.map Prod.fst =
          [.byte none, .nothing, .nothing, .count 0, .bytes (Utf8.encode "(a")] := by
  intro source c k greatest
  have hfits : source.length < UInt64.size := by decide
  have hmade : Made source c k := .window 1 2
  obtain ⟨trace, hrun, hshown, -, -⟩ := run?_stays_in_window hfits hmade
    [.peekAt greatest, .advanceTo 0, .advance greatest, .remaining, .slice 0 greatest]
  refine ⟨hfits, hmade, trace, hrun, ?_⟩
  have hanswers := congrArg (List.map Prod.fst) hshown
  rw [List.map_map] at hanswers
  exact hanswers

end WordCursor

end RecordFilter
