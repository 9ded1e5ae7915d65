import RecordFilter.Reading.Grouping
import RecordFilter.Proofs.Window

/-!
# Bytes that differ in their blanks only

`Respaced move quoting pos s t` says that `t` is `s` with some runs of blanks cut
shorter, none of them to nothing, and that what stands at an offset of `s`, which starts
at `pos`, stands in `t` where `move` says.  Strings stay as they are: a blank may be
left out only where the scan is outside of them.  Bytes that merely stand elsewhere are
the case in which no blank is left out.

A reader that looks at the next byte, takes it or skips a run does the same in both.

* `Window.Respaced.skip_one`, `Window.Respaced.skipSpaces`, `Window.Respaced.skipWhile` —
  the ways in which a reader goes on;
* `Window.Respaced.closing?` — the scan for a closing parenthesis.
-/

namespace RecordFilter

open Grouping

/-- The bytes `t` are `s`, which start at `pos` where the scan is at `quoting`, but for
blanks that other blanks follow; `move` tells where an offset of `s` has gone. -/
inductive Respaced (move : Nat → Nat) : Quoting → Nat → List UInt8 → List UInt8 → Prop
  | nil (quoting : Quoting) (pos : Nat) : Respaced move quoting pos [] []
  | byte {quoting : Quoting} {pos : Nat} {b : UInt8} {s t : List UInt8}
      (hmove : move (pos + 1) = move pos + 1)
      (tail : Respaced move (quoting.next b) (pos + 1) s t) :
      Respaced move quoting pos (b :: s) (b :: t)
  | blank {pos : Nat} {s t : List UInt8} (hmove : move (pos + 1) = move pos)
      (tail : Respaced move .outside (pos + 1) (Byte.space :: s) t) :
      Respaced move .outside pos (Byte.space :: Byte.space :: s) t

variable {move : Nat → Nat} {quoting : Quoting} {pos : Nat} {s t : List UInt8} {b : UInt8}

namespace Respaced

/-- Both texts start with the same byte. -/
theorem head?_eq (h : Respaced move quoting pos s t) : t.head? = s.head? := by
  induction h with
  | nil => rfl
  | byte => rfl
  | blank _ _ ih => exact ih

/-- The end of one text is moved to the end of the other. -/
theorem stop_eq (h : Respaced move quoting pos s t) :
    move (pos + s.length) = move pos + t.length := by
  induction h with
  | nil => rfl
  | byte hmove _ ih =>
      rw [List.length_cons, List.length_cons, Nat.add_comm _ 1, ← Nat.add_assoc, ih, hmove]
      omega
  | @blank pos s t hmove _ ih =>
      rw [List.length_cons, Nat.add_comm _ 1, ← Nat.add_assoc, ih, hmove]

/-- A byte that is no blank outside of strings is the same byte on the other side. -/
theorem cons (h : Respaced move quoting pos (b :: s) t)
    (hb : quoting = .outside → b ≠ Byte.space) :
    ∃ t', t = b :: t' ∧ move (pos + 1) = move pos + 1 ∧
      Respaced move (quoting.next b) (pos + 1) s t' := by
  cases h with
  | byte hmove tail => exact ⟨_, rfl, hmove, tail⟩
  | blank => exact absurd rfl (hb rfl)

/-- Bytes that stand elsewhere, all at the same distance. -/
theorem of_add (n : Nat) (quoting : Quoting) (pos : Nat) (s : List UInt8) :
    Respaced (· + n) quoting pos s s := by
  induction s generalizing quoting pos with
  | nil => exact .nil quoting pos
  | cons b s ih => exact .byte (Nat.add_right_comm pos 1 n) (ih _ _)

end Respaced

/-! ## Windows -/

namespace Window

/-- The window `w'` is `w`, but for blanks, where `move` says. -/
structure Respaced (move : Nat → Nat) (w w' : Window) : Prop where
  pos : w'.pos = move w.pos
  rest : RecordFilter.Respaced move .outside w.pos w.rest w'.rest

variable {w w' : Window} {p : UInt8 → Bool}

namespace Respaced

/-- Both windows show the same byte. -/
theorem peek? (h : Respaced move w w') : w'.peek? = w.peek? :=
  h.rest.head?_eq

/-- Both windows are at their end or neither is. -/
theorem atEnd (h : Respaced move w w') : w'.atEnd = w.atEnd := by
  have hpeek := h.peek?
  unfold Window.peek? at hpeek
  unfold Window.atEnd
  cases hw : w.rest <;> cases hw' : w'.rest <;> simp_all

/-- The end of one window is moved to the end of the other. -/
theorem stop (h : Respaced move w w') : w'.stop = move w.stop := by
  unfold Window.stop
  rw [h.rest.stop_eq, h.pos]

/-- A byte that is neither a blank nor a quote is taken on both sides. -/
theorem skip_one (h : Respaced move w w') (hb : w.peek? = some b) (hspace : b ≠ Byte.space)
    (hquote : b ≠ Byte.quote) : Respaced move (w.skip 1) (w'.skip 1) := by
  obtain ⟨pos, rest⟩ := w
  obtain ⟨pos', rest'⟩ := w'
  obtain ⟨s, rfl⟩ := List.head?_eq_some_iff.mp hb
  obtain ⟨t, rfl, hmove, tail⟩ := h.rest.cons fun _ => hspace
  obtain rfl := h.pos
  rw [Quoting.next, if_neg hquote] at tail
  exact ⟨hmove.symm, tail⟩

/-- A run of bytes that are neither blanks nor quotes is taken on both sides. -/
theorem skipWhile (h : Respaced move w w') (hspace : p Byte.space = false)
    (hquote : p Byte.quote = false) :
    w'.run p = w.run p ∧ Respaced move (w.skipWhile p) (w'.skipWhile p) := by
  obtain ⟨pos, s⟩ := w
  obtain ⟨pos', t⟩ := w'
  obtain rfl := h.pos
  obtain ⟨-, h⟩ := h
  induction s generalizing pos t with
  | nil =>
      obtain rfl : t = [] := List.head?_eq_none_iff.mp h.head?_eq
      exact ⟨rfl, rfl, h⟩
  | cons b s ih =>
      by_cases hb : p b = true
      · have hne : b ≠ Byte.space := Byte.ne_of_class hb hspace
        obtain ⟨t, rfl, hmove, tail⟩ := h.cons fun _ => hne
        rw [Quoting.next, if_neg (Byte.ne_of_class hb hquote)] at tail
        obtain ⟨hrun, hrest⟩ := ih _ _ tail
        rw [skipWhile_cons_of_pos hb, skipWhile_cons_of_pos hb, ← hmove]
        refine ⟨?_, hrest⟩
        unfold run at hrun ⊢
        rw [List.takeWhile_cons_of_pos hb, List.takeWhile_cons_of_pos hb, hrun]
      · have hstop : p b = false := Bool.not_eq_true _ ▸ hb
        obtain ⟨tail, rfl⟩ := List.head?_eq_some_iff.mp h.head?_eq
        rw [skipWhile_cons_of_neg hstop, skipWhile_cons_of_neg hstop]
        refine ⟨?_, rfl, h⟩
        simp only [run, List.takeWhile_cons, hstop, Bool.false_eq_true, if_false]

/-- Skipping the blanks in front goes to the same byte on both sides. -/
theorem skipSpaces (h : Respaced move w w') : Respaced move w.skipSpaces w'.skipSpaces := by
  obtain ⟨pos, s⟩ := w
  obtain ⟨pos', t⟩ := w'
  obtain ⟨hpos, h⟩ := h
  dsimp only at hpos h
  subst hpos
  generalize hquoting : Quoting.outside = quoting at h
  induction h with
  | nil => exact ⟨rfl, hquoting ▸ .nil _ _⟩
  | @byte _ pos b s t hmove tail ih =>
      subst hquoting
      by_cases hb : b = Byte.space
      · subst hb
        rw [skipSpaces_cons_space, skipSpaces_cons_space, ← hmove]
        exact ih rfl
      · have hspace : ∀ pos s, (⟨pos, b :: s⟩ : Window).skipSpaces = ⟨pos, b :: s⟩ :=
          fun pos s => skipSpaces_of_peek?_ne fun heq => hb (Option.some.inj heq)
        rw [hspace, hspace]
        exact ⟨rfl, .byte hmove tail⟩
  | blank hmove _ ih =>
      rw [skipSpaces_cons_space, ← hmove]
      exact ih rfl

/-- Behind a blank the same byte comes next on both sides. -/
theorem skip_space (h : Respaced move w w') (hb : w.peek? = some Byte.space) :
    Respaced move (w.skip 1).skipSpaces (w'.skip 1).skipSpaces := by
  rw [skipSpaces_skip_one hb, skipSpaces_skip_one (h.peek?.trans hb)]
  exact h.skipSpaces

end Respaced

end Window

/-! ## The scan for a closing parenthesis -/

/-- What a scan from `offset` on finds is not in front of `offset`. -/
theorem Grouping.le_of_closingFrom? {layers offset found : Nat} {quoting : Quoting}
    {bytes : List UInt8} (h : closingFrom? layers offset quoting bytes = some found) :
    offset ≤ found := by
  fun_induction closingFrom? layers offset quoting bytes <;> grind

/-- The scan passes over a byte that is no parenthesis outside of strings. -/
theorem Grouping.closingFrom?_skip {layers offset : Nat}
    (hopen : ¬(quoting = .outside ∧ b = Byte.openParen))
    (hclose : ¬(quoting = .outside ∧ b = Byte.closeParen)) (bytes : List UInt8) :
    closingFrom? layers offset quoting (b :: bytes) =
      closingFrom? layers (offset + 1) (quoting.next b) bytes := by
  conv => lhs; unfold closingFrom?
  rw [if_neg hopen, if_neg hclose]

namespace Respaced

/-- Two scans from `offset` and `offset'` on come to the same: neither finds anything, or
they find parentheses with the same bytes in front and the same bytes behind. -/
inductive Closes (move : Nat → Nat) (quoting : Quoting) (pos : Nat) (s t : List UInt8)
    (offset offset' : Nat) : Option Nat → Option Nat → Prop
  | none : Closes move quoting pos s t offset offset' none none
  | some {found found' : Nat} (i j : Nat) (hfound : found = offset + i)
      (hfound' : found' = offset' + j)
      (inside : Respaced move quoting pos (s.take i) (t.take j))
      (hmove : move (pos + (i + 1)) = move pos + (j + 1))
      (behind : Respaced move .outside (pos + (i + 1)) (s.drop (i + 1)) (t.drop (j + 1))) :
      Closes move quoting pos s t offset offset' (some found) (some found')

variable {offset offset' : Nat} {r r' : Option Nat}

/-- A byte in front of both texts moves the parenthesis on by one in both. -/
theorem Closes.byte (hmove : move (pos + 1) = move pos + 1)
    (h : Closes move (quoting.next b) (pos + 1) s t (offset + 1) (offset' + 1) r r') :
    Closes move quoting pos (b :: s) (b :: t) offset offset' r r' := by
  cases h with
  | none => exact .none
  | some i j hfound hfound' inside hfar behind =>
      rw [Nat.add_assoc, Nat.add_comm 1] at hfar behind
      exact .some (i + 1) (j + 1) (by omega) (by omega) (.byte hmove inside)
        (by rw [hfar, hmove]; omega) behind

/-- What is found behind a blank that may be left out is found without it. -/
theorem Closes.blank {layers : Nat} (hmove : move (pos + 1) = move pos)
    (h : Closes move .outside (pos + 1) (Byte.space :: s) t (offset + 1) offset'
      (closingFrom? layers (offset + 1) .outside (Byte.space :: s)) r') :
    Closes move .outside pos (Byte.space :: Byte.space :: s) t offset offset'
      (closingFrom? layers (offset + 1) .outside (Byte.space :: s)) r' := by
  generalize hscan : closingFrom? layers (offset + 1) .outside (Byte.space :: s) = r at h ⊢
  cases h with
  | none => exact .none
  | some i j hfound hfound' inside hfar behind =>
      -- A blank is not what the scan looks for, so it has passed over the second one.
      have hle : offset + 2 ≤ offset + 1 + i := by
        rw [closingFrom?_skip (by decide) (by decide), hfound] at hscan
        exact le_of_closingFrom? hscan
      obtain ⟨k, rfl⟩ : ∃ k, i = k + 1 := ⟨i - 1, by omega⟩
      rw [Nat.add_assoc, Nat.add_comm 1] at hfar behind
      exact .some (k + 2) j (by omega) hfound' (.blank hmove inside) (by rw [hfar, hmove]) behind

/-- **The scan for a closing parenthesis comes to the same.** -/
theorem closingFrom? (h : Respaced move quoting pos s t) (layers offset offset' : Nat) :
    Closes move quoting pos s t offset offset'
      (Grouping.closingFrom? layers offset quoting s)
      (Grouping.closingFrom? layers offset' quoting t) := by
  induction h generalizing layers offset offset' with
  | nil => exact .none
  | @byte quoting pos b s t hmove tail ih =>
      by_cases hopen : quoting = .outside ∧ b = Byte.openParen
      · obtain ⟨rfl, rfl⟩ := hopen
        exact (ih (layers + 1) (offset + 1) (offset' + 1)).byte hmove
      by_cases hclose : quoting = .outside ∧ b = Byte.closeParen
      · obtain ⟨rfl, rfl⟩ := hclose
        match layers with
        | 0 => exact .none
        | 1 => exact .some 0 0 rfl rfl (.nil _ _) hmove tail
        | n + 2 => exact (ih (n + 1) (offset + 1) (offset' + 1)).byte hmove
      · rw [closingFrom?_skip hopen hclose, closingFrom?_skip hopen hclose]
        exact (ih layers (offset + 1) (offset' + 1)).byte hmove
  | @blank pos s t hmove tail ih =>
      rw [closingFrom?_skip (by decide) (by decide)]
      exact (ih layers (offset + 1) offset').blank hmove

end Respaced

/-- What two windows have in front of and behind the parenthesis that closes a group. -/
theorem Window.Respaced.closing? {w w' : Window} (h : w.Respaced move w') :
    (Grouping.closing? w.rest = none ∧ Grouping.closing? w'.rest = none) ∨
      ∃ i j, Grouping.closing? w.rest = some i ∧ Grouping.closing? w'.rest = some j ∧
        Respaced move ⟨w.pos, w.rest.take i⟩ ⟨w'.pos, w'.rest.take j⟩ ∧
        Respaced move (w.skip (i + 1)) (w'.skip (j + 1)) := by
  have hscan := h.rest.closingFrom? 1 0 0
  generalize hfound : Grouping.closing? w.rest = found
  generalize hfound' : Grouping.closing? w'.rest = found'
  rw [show Grouping.closingFrom? 1 0 .outside w.rest = found from hfound,
    show Grouping.closingFrom? 1 0 .outside w'.rest = found' from hfound'] at hscan
  cases hscan with
  | none => exact .inl ⟨rfl, rfl⟩
  | some i j hi hj inside hmove behind =>
      obtain rfl := hi.trans (Nat.zero_add i)
      obtain rfl := hj.trans (Nat.zero_add j)
      have hlt := Grouping.closing?_lt hfound
      have hlt' := Grouping.closing?_lt hfound'
      refine .inr ⟨_, _, rfl, rfl, ⟨h.pos, inside⟩, ?_, ?_⟩
      · simp only [Window.skip, List.length_take_of_le (Nat.succ_le_of_lt hlt),
          List.length_take_of_le (Nat.succ_le_of_lt hlt'), h.pos]
        exact hmove.symm
      · simp only [Window.skip, List.length_take_of_le (Nat.succ_le_of_lt hlt)]
        exact behind

end RecordFilter
