import RecordFilter.Window

/-!
# Taking text off the front of a window

Every reader takes some text off the front of its window and leaves the window
behind it.  `Window.Takes` says so, with the offset that goes along; readings
compose by `Takes.trans` and come apart by `Takes.split`.

* `Takes.unique` — a text leaves one window only;
* `Has.of_takes` — bytes keep their offsets;
* `takes_run`, `Takes.run_eq` — a maximal run is what `skipWhile` takes, and any text
  of the class that nothing of the class follows is that run.
-/

namespace RecordFilter

/-- A run of `n` blanks. -/
def Byte.spaces (n : Nat) : List UInt8 := List.replicate n Byte.space

/-- A byte of a class differs from the bytes outside of it. -/
theorem Byte.ne_of_class {p : UInt8 → Bool} {b c : UInt8} (hb : p b = true)
    (hc : p c = false) : b ≠ c := by
  intro heq
  rw [heq, hc] at hb
  cases hb

/-- No run of bytes of a class goes on from `s` into `t`. -/
def Severed (p : UInt8 → Bool) (s t : List UInt8) : Prop :=
  ∀ b c, s.getLast? = some b → t.head? = some c → p b = true → p c = false

section Severed

variable {p : UInt8 → Bool} {b : UInt8} {s t u : List UInt8}

/-- A byte that is not of the class ends every run. -/
theorem severed_concat (hb : p b = false) (s t : List UInt8) : Severed p (s ++ [b]) t := by
  intro c d hc _ hclass
  rw [List.getLast?_concat] at hc
  obtain rfl := Option.some.inj hc
  rw [hb] at hclass
  cases hclass

/-- No run goes on into a byte that is not of the class. -/
theorem severed_cons (hb : p b = false) (s t : List UInt8) : Severed p s (b :: t) := by
  intro c d _ hd _
  obtain rfl := Option.some.inj hd
  exact hb

/-- Only the bytes at the border count. -/
theorem Severed.mono_right (h : Severed p s (t ++ u)) : Severed p s t := by
  intro b c hb hc
  exact h b c hb (by rw [List.head?_append, hc]; rfl)

/-- With a byte less in front the border is still not crossed. -/
theorem Severed.tail (h : Severed p (b :: s) t) : Severed p s t := by
  intro c d hc hd
  apply h c d _ hd
  rw [List.getLast?_cons, hc]
  rfl

end Severed

namespace Window

/-- Reading `text` off the front of `w` leaves `after`. -/
structure Takes (w : Window) (text : List UInt8) (after : Window) : Prop where
  rest_eq : w.rest = text ++ after.rest
  pos_eq : after.pos = w.pos + text.length

variable {w u v : Window} {s t : List UInt8} {p : UInt8 → Bool}

/-- Nothing is in front of every window. -/
theorem takes_nil (w : Window) : w.Takes [] w := ⟨rfl, rfl⟩

/-- Two texts are read off one behind the other. -/
theorem Takes.trans (hs : w.Takes s u) (ht : u.Takes t v) : w.Takes (s ++ t) v := by
  refine ⟨?_, ?_⟩
  · rw [hs.rest_eq, ht.rest_eq, List.append_assoc]
  · rw [ht.pos_eq, hs.pos_eq, List.length_append, Nat.add_assoc]

/-- The window between two texts that are taken one after the other. -/
theorem Takes.split (h : w.Takes (s ++ t) v) : ∃ u, w.Takes s u ∧ u.Takes t v := by
  refine ⟨⟨w.pos + s.length, t ++ v.rest⟩, ⟨?_, rfl⟩, ⟨rfl, ?_⟩⟩
  · rw [h.rest_eq, List.append_assoc]
  · rw [h.pos_eq, List.length_append, Nat.add_assoc]

/-- A text leaves one window only. -/
theorem Takes.unique (hu : w.Takes s u) (hv : w.Takes s v) : u = v := by
  cases u with
  | mk upos urest =>
    cases v with
    | mk vpos vrest =>
      have hpos : upos = vpos := hu.pos_eq.trans hv.pos_eq.symm
      have hrest : urest = vrest :=
        List.append_cancel_left (hu.rest_eq.symm.trans hv.rest_eq)
      rw [hpos, hrest]

/-- What follows a text is the window after as many bytes. -/
theorem Takes.skip_eq (h : w.Takes s u) : w.skip s.length = u := by
  cases u with
  | mk pos rest => simp [skip, h.rest_eq, ← h.pos_eq]

/-- Skipping takes what it skips. -/
theorem takes_skip (w : Window) (n : Nat) : w.Takes (w.rest.take n) (w.skip n) :=
  ⟨(List.take_append_drop n w.rest).symm, rfl⟩

/-- The next byte is the first of the text. -/
theorem Takes.peek?_cons {b : UInt8} (h : w.Takes (b :: t) u) : w.peek? = some b := by
  rw [peek?, h.rest_eq]
  rfl

/-- The next byte is the first byte of every text that is taken. -/
theorem Takes.eq_of_peek? {b c : UInt8} (h : w.Takes (b :: t) u) (hc : w.peek? = some c) :
    c = b :=
  Option.some.inj (hc.symm.trans h.peek?_cons)

/-- The next byte is read off the front. -/
theorem takes_of_peek? {b : UInt8} (h : w.peek? = some b) : w.Takes [b] (w.skip 1) := by
  cases w with
  | mk pos rest =>
    cases rest with
    | nil => cases h
    | cons c rest => cases h; exact ⟨rfl, rfl⟩

/-- There is no next byte exactly at the end. -/
theorem peek?_eq_none_iff : w.peek? = none ↔ w.rest = [] := by
  rw [peek?, List.head?_eq_none_iff]

/-- Taking nothing leaves the window as it is. -/
theorem Takes.eq_of_nil (h : w.Takes s u) (hs : s = []) : u = w := by
  subst hs
  exact h.unique w.takes_nil

/-- Taking text moves no end. -/
theorem Takes.stop_eq (h : w.Takes s u) : u.stop = w.stop := by
  rw [stop, stop, h.pos_eq, h.rest_eq, List.length_append, Nat.add_assoc]

/-! ## Bytes and their offsets -/

/-- The byte `b` stands at an offset of the window. -/
def Has (w : Window) (b : UInt8) (offset : Nat) : Prop :=
  ∃ k, offset = w.pos + k ∧ w.rest[k]? = some b

section Has

variable {b : UInt8} {offset : Nat}

/-- The next byte stands at the offset of the window. -/
theorem has_of_peek? (h : w.peek? = some b) : w.Has b w.pos := by
  obtain ⟨rest, hrest⟩ := List.head?_eq_some_iff.mp h
  exact ⟨0, rfl, by rw [hrest]; rfl⟩

/-- A window that has not come to its end has a next byte. -/
theorem exists_peek? (h : ¬w.atEnd = true) : ∃ b, w.peek? = some b := by
  cases hpeek : w.peek? with
  | some b => exact ⟨b, rfl⟩
  | none =>
      rw [atEnd, peek?_eq_none_iff.mp hpeek] at h
      exact absurd rfl h

/-- There is a byte at every offset inside a window. -/
theorem exists_has {k : Nat} (h : k < w.rest.length) : ∃ b, w.Has b (w.pos + k) :=
  ⟨w.rest[k], k, rfl, List.getElem?_eq_getElem h⟩

/-- A byte of a window is in front of its end. -/
theorem Has.lt_stop (h : w.Has b offset) : offset < w.stop := by
  obtain ⟨k, rfl, hk⟩ := h
  exact Nat.add_lt_add_left (List.getElem?_eq_some_iff.mp hk).1 w.pos

/-- A byte of what is left is a byte of the whole window. -/
theorem Has.of_takes (h : u.Has b offset) (htakes : w.Takes s u) : w.Has b offset := by
  obtain ⟨k, rfl, hk⟩ := h
  refine ⟨s.length + k, ?_, ?_⟩
  · rw [htakes.pos_eq, Nat.add_assoc]
  · rw [htakes.rest_eq, List.getElem?_append_right (Nat.le_add_right _ _),
      Nat.add_sub_cancel_left, hk]

end Has

/-! ## Runs -/

/-- A run is read off the front. -/
theorem takes_run (w : Window) (p : UInt8 → Bool) : w.Takes (w.run p) (w.skipWhile p) :=
  ⟨(w.run_append_skipWhile p).symm, rfl⟩

theorem all_of_mem_run {b : UInt8} (h : b ∈ w.run p) : p b = true := by
  have hall := List.all_takeWhile (l := w.rest) (p := p)
  exact List.all_eq_true.mp hall b h

/-- A run ends where a byte is not of its class. -/
theorem not_of_peek?_skipWhile {b : UInt8} (h : (w.skipWhile p).peek? = some b) :
    p b = false := by
  have hnot := List.head?_dropWhile_not p w.rest
  rw [show (w.rest.dropWhile p).head? = some b from h] at hnot
  simpa using hnot

/-- A text of the class that no byte of the class follows is the run. -/
theorem Takes.run_eq (h : w.Takes s u) (hs : ∀ b ∈ s, p b = true)
    (hu : ∀ b, u.peek? = some b → p b = false) :
    w.run p = s ∧ w.skipWhile p = u := by
  have hrest : u.rest.takeWhile p = [] := by
    cases hurest : u.rest with
    | nil => rfl
    | cons b rest =>
      have hb := hu b (by rw [peek?, hurest]; rfl)
      simp [hb]
  have hrun : w.run p = s := by
    rw [run, h.rest_eq, List.takeWhile_append_of_pos hs, hrest, List.append_nil]
  exact ⟨hrun, (hrun ▸ w.takes_run p).unique h⟩

/-- A byte of the class is skipped. -/
theorem skipWhile_cons_of_pos {b : UInt8} (hb : p b = true) (pos : Nat) (rest : List UInt8) :
    (⟨pos, b :: rest⟩ : Window).skipWhile p = (⟨pos + 1, rest⟩ : Window).skipWhile p := by
  simp only [skipWhile, run, List.takeWhile_cons_of_pos hb, List.dropWhile_cons_of_pos hb,
    List.length_cons, Nat.add_assoc, Nat.add_comm 1]

/-- Another byte ends the run. -/
theorem skipWhile_cons_of_neg {b : UInt8} (hb : p b = false) (pos : Nat) (rest : List UInt8) :
    (⟨pos, b :: rest⟩ : Window).skipWhile p = ⟨pos, b :: rest⟩ := by
  simp [skipWhile, run, hb]

/-! ## Blanks -/

theorem isSpace_iff {b : UInt8} : Byte.isSpace b = true ↔ b = Byte.space := by
  simp [Byte.isSpace]

theorem mem_spaces {b : UInt8} {n : Nat} (h : b ∈ Byte.spaces n) : b = Byte.space :=
  List.eq_of_mem_replicate h

@[simp] theorem length_spaces (n : Nat) : (Byte.spaces n).length = n :=
  List.length_replicate

theorem skipSpaces_cons_space (pos : Nat) (rest : List UInt8) :
    (⟨pos, Byte.space :: rest⟩ : Window).skipSpaces = (⟨pos + 1, rest⟩ : Window).skipSpaces :=
  skipWhile_cons_of_pos rfl pos rest

/-- What is skipped as blanks is a number of blanks. -/
theorem takes_spaces (w : Window) : ∃ n, w.Takes (Byte.spaces n) w.skipSpaces := by
  refine ⟨(w.run Byte.isSpace).length, ?_⟩
  have hall : w.run Byte.isSpace = Byte.spaces (w.run Byte.isSpace).length :=
    List.eq_replicate_iff.mpr ⟨rfl, fun b hb => isSpace_iff.mp (all_of_mem_run hb)⟩
  rw [← hall]
  exact w.takes_run Byte.isSpace

/-- No blank follows the blanks that are skipped. -/
theorem peek?_skipSpaces_ne (w : Window) : w.skipSpaces.peek? ≠ some Byte.space := by
  intro h
  have := not_of_peek?_skipWhile h
  simp [Byte.isSpace] at this

/-- Blanks that something else follows are all skipped. -/
theorem Takes.skipSpaces_eq {n : Nat} (h : w.Takes (Byte.spaces n) u)
    (hu : u.peek? ≠ some Byte.space) : w.skipSpaces = u := by
  refine (h.run_eq (fun b hb => isSpace_iff.mpr (mem_spaces hb)) ?_).2
  intro b hb
  rw [← Bool.not_eq_true, isSpace_iff]
  intro heq
  subst heq
  exact hu hb

/-- Two runs of blanks that something else follows end at the same byte. -/
theorem Takes.eq_of_spaces {m n : Nat} (hu : w.Takes (Byte.spaces m) u)
    (hv : w.Takes (Byte.spaces n) v) (hbehind : u.peek? ≠ some Byte.space)
    (hbehind' : v.peek? ≠ some Byte.space) : u = v :=
  (hu.skipSpaces_eq hbehind).symm.trans (hv.skipSpaces_eq hbehind')

/-- Without a blank in front nothing is skipped. -/
theorem skipSpaces_of_peek?_ne (h : w.peek? ≠ some Byte.space) : w.skipSpaces = w :=
  Takes.skipSpaces_eq (n := 0) w.takes_nil h

/-- A blank is one of the blanks that are skipped. -/
theorem skipSpaces_skip_one (h : w.peek? = some Byte.space) :
    (w.skip 1).skipSpaces = w.skipSpaces := by
  obtain ⟨pos, rest⟩ := w
  obtain ⟨tail, rfl⟩ := List.head?_eq_some_iff.mp h
  exact (skipSpaces_cons_space pos tail).symm

end Window

end RecordFilter
