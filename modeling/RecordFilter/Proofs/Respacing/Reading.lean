import RecordFilter.Reading.Call
import RecordFilter.Reading.Symbol
import RecordFilter.Proofs.Query.Relocate
import RecordFilter.Proofs.Respacing.Window
import RecordFilter.Proofs.Text.Quoted

/-!
# Readers in front of bytes that differ in their blanks

In front of windows that differ in their blanks only, a reader reads the same and stops
in front of the same bytes, or fails in the same way at the same place.  It is said here
of one reader after the other, also where they fail.  The reader of operators alone asks
that no blank comes next: one that is left could be all that is left.

* `Literal.read_respaced`, `Operator.read_respaced`, `Connector.read_respaced`,
  `FunctionCall.read_respaced` — the readers that the machine uses.
-/

namespace RecordFilter

open Grouping

variable {move : Nat → Nat} {w w' : Window} {place : Place}

/-- Two readings come to results that `change` maps onto each other, and stop in front of
windows that differ in their blanks only. -/
def ReadsAlike {α : Type} (move : Nat → Nat) (change : α → α) : Reading α → Reading α → Prop :=
  Moves move fun r r' => r'.1 = change r.1 ∧ r.2.Respaced move r'.2

/-- Readings that are alike both fail or both succeed. -/
theorem ReadsAlike.cases {α : Type} {change : α → α} {r r' : Reading α}
    (h : ReadsAlike move change r r') :
    (∃ e, r = .error e ∧ r' = .error (e.relocate move)) ∨
      ∃ x after after', r = .ok (x, after) ∧ r' = .ok (change x, after') ∧
        after.Respaced move after' := by
  rcases Moves.cases h with herror | ⟨⟨x, after⟩, ⟨y, after'⟩, hr, hr', rfl, hafter⟩
  · exact .inl herror
  · exact .inr ⟨x, after, after', hr, hr', hafter⟩

namespace Window.Respaced

/-! ## Common failures -/

variable {α : Type} {R : α → α → Prop} {violation : Violation} {part : Part} {hint : String}

/-- Failures at the next byte are alike. -/
theorem failure (h : w.Respaced move w') :
    Moves move R (w.failure violation part hint) (w'.failure violation part hint) := by
  unfold Window.failure
  rw [h.pos]
  exact .error _

theorem truncated (h : w.Respaced move w') :
    Moves move R (w.truncated part hint) (w'.truncated part hint) := by
  unfold Window.truncated
  rw [h.stop]
  exact .error _

/-! ## Two bytes ahead -/

/-- Behind a byte that is no blank the same byte comes next, or none. -/
theorem two_ahead (h : w.Respaced move w') (hspace : w.peek? ≠ some Byte.space) :
    (w.rest.length < 2 ∧ w'.rest.length < 2) ∨
      ∃ a b s t, w.rest = a :: b :: s ∧ w'.rest = a :: b :: t := by
  obtain ⟨pos, s⟩ := w
  obtain ⟨pos', t⟩ := w'
  obtain ⟨-, h⟩ := h
  match s with
  | [] =>
      obtain rfl : t = [] := List.head?_eq_none_iff.mp h.head?_eq
      exact .inl ⟨Nat.zero_lt_two, Nat.zero_lt_two⟩
  | a :: s =>
      obtain ⟨t, rfl, -, tail⟩ := h.cons fun _ heq => hspace (congrArg some heq)
      match s with
      | [] =>
          obtain rfl : t = [] := List.head?_eq_none_iff.mp tail.head?_eq
          exact .inl ⟨Nat.one_lt_two, Nat.one_lt_two⟩
      | b :: s =>
          obtain ⟨t, rfl⟩ := List.head?_eq_some_iff.mp tail.head?_eq
          exact .inr ⟨a, b, s, t, rfl, rfl⟩

/-- Two bytes that are neither blanks nor quotes are taken on both sides. -/
theorem skip_two (h : w.Respaced move w') {a b : UInt8} {s : List UInt8}
    (hrest : w.rest = a :: b :: s) (ha : a ≠ Byte.space ∧ a ≠ Byte.quote)
    (hb : b ≠ Byte.space ∧ b ≠ Byte.quote) : (w.skip 2).Respaced move (w'.skip 2) := by
  have htwo : ∀ v : Window, (v.skip 1).skip 1 = v.skip 2 := by
    intro v
    obtain ⟨pos, rest⟩ := v
    match rest with
    | [] => rfl
    | [_] => rfl
    | _ :: _ :: _ => rfl
  have hfirst : w.peek? = some a := by rw [Window.peek?, hrest]; rfl
  have hsecond : (w.skip 1).peek? = some b := by rw [Window.peek?, Window.skip, hrest]; rfl
  rw [← htwo, ← htwo]
  exact (h.skip_one hfirst ha.1 ha.2).skip_one hsecond hb.1 hb.2

end Window.Respaced

/-! ## Operators and connectors -/

/-- Operators are read alike where no blank is in front of them. -/
theorem Operator.read_respaced (h : w.Respaced move w') (hspace : w.peek? ≠ some Byte.space) :
    ReadsAlike move id (Operator.read w) (Operator.read w') := by
  unfold Operator.read
  rcases h.two_ahead hspace with ⟨hshort, hshort'⟩ | ⟨a, b, s, t, hrest, hrest'⟩
  · split
    · next hrest => exact absurd hshort (by simp [hrest])
    split
    · next hrest' => exact absurd hshort' (by simp [hrest'])
    exact h.truncated
  · have hfirst : w.peek? = some a := by rw [Window.peek?, hrest]; rfl
    have hone : a ≠ Byte.space ∧ a ≠ Byte.quote →
        (w.skip 1).Respaced move (w'.skip 1) := fun ha => h.skip_one hfirst ha.1 ha.2
    have htwo : a ≠ Byte.space ∧ a ≠ Byte.quote → b ≠ Byte.space ∧ b ≠ Byte.quote →
        (w.skip 2).Respaced move (w'.skip 2) := h.skip_two hrest
    rw [hrest, hrest']
    dsimp only
    split
    · next ha =>
      subst ha
      split
      · next hb => exact .ok ⟨rfl, htwo (by decide) (hb ▸ by decide)⟩
      · exact .ok ⟨rfl, hone (by decide)⟩
    split
    · next ha =>
      subst ha
      split
      · next hb => exact .ok ⟨rfl, htwo (by decide) (hb ▸ by decide)⟩
      · exact .ok ⟨rfl, hone (by decide)⟩
    split
    · next hboth => exact .ok ⟨rfl, htwo (hboth.1 ▸ by decide) (hboth.2 ▸ by decide)⟩
    split
    · next hboth => exact .ok ⟨rfl, htwo (hboth.1 ▸ by decide) (hboth.2 ▸ by decide)⟩
    · exact h.failure

namespace Connector

theorem readSymbol_respaced (connector : Connector) (h : w.Respaced move w') {b : UInt8}
    (hb : w.peek? = some b) (hplain : b ≠ Byte.space ∧ b ≠ Byte.quote) :
    ReadsAlike move id (readSymbol connector w) (readSymbol connector w') := by
  unfold readSymbol
  have hspace : w.peek? ≠ some Byte.space := fun heq =>
    hplain.1 (Option.some.inj (hb.symm.trans heq))
  rcases h.two_ahead hspace with ⟨hshort, hshort'⟩ | ⟨a, c, s, t, hrest, hrest'⟩
  · split
    · next hrest => exact absurd hshort (by simp [hrest])
    split
    · next hrest' => exact absurd hshort' (by simp [hrest'])
    exact h.truncated
  · obtain rfl : a = b := by simpa [Window.peek?, hrest] using hb
    have htwo := h.skip_two (b := c) hrest hplain
    rw [hrest, hrest']
    dsimp only
    split
    · next hc => exact .ok ⟨rfl, htwo (hc ▸ hplain)⟩
    · exact h.failure

theorem readWord_respaced (h : w.Respaced move w') :
    ReadsAlike move id (readWord w) (readWord w') := by
  obtain ⟨hrun, hskip⟩ := h.skipWhile (p := Byte.isLetter) rfl rfl
  unfold readWord
  rw [hrun]
  dsimp only
  split
  · exact .ok ⟨rfl, hskip⟩
  split
  · exact .ok ⟨rfl, hskip⟩
  · exact h.failure

/-- Connectors are read alike. -/
theorem read_respaced (h : w.Respaced move w') :
    ReadsAlike move id (Connector.read w) (Connector.read w') := by
  unfold Connector.read
  rw [h.peek?]
  split
  · exact h.truncated
  · next b hb =>
    split
    · next heq => exact readSymbol_respaced .and h hb (heq ▸ by decide)
    split
    · next heq => exact readSymbol_respaced .or h hb (heq ▸ by decide)
    split
    · exact h.failure
    split
    · exact readWord_respaced h
    · exact h.failure

end Connector

/-! ## Literals -/

namespace Literal

variable {negative : Bool} {start : Nat}

theorem missingDigit_respaced (h : w.Respaced move w') :
    ReadsAlike move id (missingDigit place w) (missingDigit place w') := by
  unfold missingDigit
  rw [h.atEnd]
  split
  · exact h.truncated
  · exact h.failure

theorem fraction_respaced (whole : List UInt8) (h : w.Respaced move w') :
    ReadsAlike move id (fraction place start negative whole w)
      (fraction place (move start) negative whole w') := by
  obtain ⟨hrun, hskip⟩ := h.skipWhile (p := Byte.isDigit) rfl rfl
  unfold fraction
  rw [hrun]
  dsimp only
  split
  · exact missingDigit_respaced hskip
  split
  · exact .ok ⟨rfl, hskip⟩
  · exact .error _

theorem digits_respaced (h : w.Respaced move w') :
    ReadsAlike move id (Literal.digits place start negative w)
      (Literal.digits place (move start) negative w') := by
  obtain ⟨hrun, hskip⟩ := h.skipWhile (p := Byte.isDigit) rfl rfl
  unfold Literal.digits
  dsimp only
  rw [hrun, hskip.peek?]
  split
  · exact missingDigit_respaced hskip
  split
  · next hdot => exact fraction_respaced _ (hskip.skip_one hdot (by decide) (by decide))
  split
  · exact .ok ⟨rfl, hskip⟩
  · exact .error _

theorem number_respaced (h : w.Respaced move w') :
    ReadsAlike move id (number place w) (number place w') := by
  unfold number
  rw [h.peek?, h.pos]
  split
  · next hminus => exact digits_respaced (h.skip_one hminus (by decide) (by decide))
  · exact digits_respaced h

theorem boolean_respaced (h : w.Respaced move w') :
    ReadsAlike move id (boolean place w) (boolean place w') := by
  obtain ⟨hrun, hskip⟩ := h.skipWhile (p := Byte.isLetter) rfl rfl
  unfold boolean
  rw [hrun]
  dsimp only
  split
  · exact .ok ⟨rfl, hskip⟩
  split
  · exact .ok ⟨rfl, hskip⟩
  · exact h.failure

/-- Inside a string nothing is left out: up to the closing quote the offsets of the two
bodies run side by side. -/
theorem body_respaced (place : Place) {pos : Nat} {s t : List UInt8} (read : List UInt8)
    (h : Respaced move .inside pos s t) :
    Moves move (fun r r' => r'.1 = r.1 ∧ r.2.Respaced move r'.2 ∧
        ∀ k, pos + k < r.2.pos → move (pos + k) = move pos + k)
      (body place pos read s) (body place (move pos) read t) := by
  have hinside : Quoting.inside = .outside → ∀ b : UInt8, b ≠ Byte.space :=
    fun h => Quoting.noConfusion h
  fun_induction body place pos read s generalizing t with
  | case1 pos read =>
      obtain rfl : t = [] := List.head?_eq_none_iff.mp h.head?_eq
      exact .error _
  | case2 pos read s =>
      obtain ⟨t, rfl, hmove, tail⟩ := h.cons fun h => hinside h _
      rw [body_quote]
      refine .ok ⟨rfl, ⟨hmove.symm, tail⟩, ?_⟩
      intro k hk
      obtain rfl : k = 0 := by dsimp only at hk; omega
      rfl
  | case3 pos read =>
      obtain ⟨t, rfl, hmove, tail⟩ := h.cons fun h => hinside h _
      obtain rfl : t = [] := List.head?_eq_none_iff.mp tail.head?_eq
      rw [body, if_neg (by decide), if_pos rfl, ← hmove]
      exact .error _
  | case4 pos read e s hescapable _ ih =>
      obtain ⟨t, rfl, hmove, tail⟩ := h.cons fun h => hinside h _
      obtain ⟨t, rfl, hmove', tail⟩ := tail.cons fun h => Quoting.noConfusion h
      have htwo : move (pos + 2) = move pos + 2 := by rw [hmove', hmove]
      rw [body_escape hescapable, ← htwo]
      refine (ih tail).mono fun r r' hr => ⟨hr.1, hr.2.1, ?_⟩
      intro k hk
      rcases k with _ | _ | k
      · rfl
      · exact hmove
      · have hside := hr.2.2 k (by omega)
        rw [Nat.add_comm k 2, ← Nat.add_assoc, hside, htwo]
        omega
  | case5 pos read e s hescapable _ =>
      obtain ⟨t, rfl, hmove, tail⟩ := h.cons fun h => hinside h _
      obtain ⟨t, rfl, -, -⟩ := tail.cons fun h => Quoting.noConfusion h
      rw [body, if_neg (by decide), if_pos rfl, if_neg hescapable]
      exact .error _
  | case6 pos read b s hquote hbackslash ih =>
      obtain ⟨t, rfl, hmove, tail⟩ := h.cons fun h => hinside h _
      rw [Quoting.next, if_neg hbackslash, if_neg hquote] at tail
      rw [body_plain hquote hbackslash, ← hmove]
      refine (ih tail).mono fun r r' hr => ⟨hr.1, hr.2.1, ?_⟩
      intro k hk
      cases k with
      | zero => rfl
      | succ k =>
          have hside := hr.2.2 k (by omega)
          rw [Nat.add_comm k 1, ← Nat.add_assoc, hside, hmove]
          omega

/-- Strings are read alike: inside of them no blank is dropped. -/
theorem string_respaced (hpos : w'.pos = move w.pos)
    (h : Respaced move .inside w.pos w.rest w'.rest) :
    ReadsAlike move id (string place w) (string place w') := by
  unfold string
  rw [hpos]
  rcases (body_respaced place [] h).cases with
    ⟨e, hr, hr'⟩ | ⟨⟨bytes, after⟩, ⟨_, after'⟩, hr, hr', rfl, hafter, hside⟩
  · rw [hr, hr']
    exact .error e
  rw [hr, hr']
  dsimp only at hafter hside ⊢
  split
  · exact .ok ⟨rfl, hafter⟩
  · next offset hdecode =>
    -- The offset lies in the body, where nothing has been left out.
    have hlt := Utf8.lt_of_decode_eq_error hdecode
    obtain ⟨inner, -, hinner, htakes⟩ := body_eq_ok_iff.mp hr
    rw [List.reverse_nil, List.nil_append] at hinner
    have hstop := htakes.pos_eq
    rw [← hinner, List.length_append, List.length_singleton] at hstop
    rw [← hside offset (by dsimp only at hstop; omega)]
    exact .error _

/-- Literals are read alike, whatever comes behind them. -/
theorem unended_respaced (place : Place) (h : w.Respaced move w') :
    ReadsAlike move id (unended place w) (unended place w') := by
  have hhead := h.peek?
  unfold unended
  cases hrest : w.rest with
  | nil =>
      have hrest' : w'.rest = [] := by
        rw [Window.peek?, Window.peek?, hrest] at hhead
        exact List.head?_eq_none_iff.mp hhead
      rw [hrest']
      exact h.truncated
  | cons b s =>
      obtain ⟨t, hrest'⟩ : ∃ t, w'.rest = b :: t := by
        rw [Window.peek?, Window.peek?, hrest] at hhead
        exact List.head?_eq_some_iff.mp hhead
      rw [hrest']
      dsimp only
      split
      · next hquote =>
        subst hquote
        have hall := h.rest
        rw [hrest, hrest'] at hall
        obtain ⟨t', heq, hmove, tail⟩ := hall.cons fun _ => by decide
        cases heq
        exact string_respaced (by rw [h.pos, hmove]) tail
      split
      · exact number_respaced h
      split
      · exact boolean_respaced h
      split
      · exact h.failure
      · exact h.failure

/-- What ends a literal is the same in both windows. -/
theorem ended_respaced (value : Value) (h : w.Respaced move w') :
    ReadsAlike move id (ended place value w) (ended place value w') := by
  have hhead := h.peek?
  unfold ended
  cases hrest : w.rest with
  | nil =>
      have hrest' : w'.rest = [] := by
        rw [Window.peek?, Window.peek?, hrest] at hhead
        exact List.head?_eq_none_iff.mp hhead
      rw [hrest']
      exact .ok ⟨rfl, h⟩
  | cons b s =>
      obtain ⟨t, hrest'⟩ : ∃ t, w'.rest = b :: t := by
        rw [Window.peek?, Window.peek?, hrest] at hhead
        exact List.head?_eq_some_iff.mp hhead
      rw [hrest']
      dsimp only
      split
      · exact .ok ⟨rfl, h⟩
      split
      · exact h.failure
      · exact h.failure

/-- **Literals are read alike.** -/
theorem read_respaced (place : Place) (h : w.Respaced move w') :
    ReadsAlike move id (Literal.read place w) (Literal.read place w') := by
  unfold Literal.read
  rcases (unended_respaced place h).cases with
    ⟨e, hr, hr'⟩ | ⟨value, after, after', hr, hr', hafter⟩
  · rw [hr, hr']
    exact .error e
  · rw [hr, hr']
    exact ended_respaced value hafter

end Literal

/-! ## Calls -/

namespace FunctionCall

theorem arguments_respaced (read : List Value) (h : w.Respaced move w') :
    ReadsAlike move id (arguments read w) (arguments read w') := by
  induction hn : w.rest.length using Nat.strongRecOn generalizing read w w' with
  | ind n ih =>
      rw [arguments_eq read w, arguments_eq read w']
      rcases (Literal.read_respaced .argument h).cases with
        ⟨e, hr, hr'⟩ | ⟨value, behind, behind', hr, hr', hbehind⟩
      · rw [hr, hr']
        exact .error e
      rw [hr, hr']
      have hspaces := hbehind.skipSpaces
      dsimp only [id]
      rw [hspaces.peek?]
      split
      · exact hbehind.truncated
      · next b hb =>
        split
        · next hcomma =>
          subst hcomma
          have hone := hspaces.skip_one hb (by decide) (by decide)
          have hlt := Literal.length_read_lt hr
          have hle := behind.length_skipSpaces_le
          have hle' := (behind.skipSpaces.skip 1).length_skipSpaces_le
          rw [Window.length_skip] at hle'
          exact ih _ (by omega) _ hone.skipSpaces rfl
        split
        · next hclose =>
          subst hclose
          exact .ok ⟨rfl, hspaces.skip_one hb (by decide) (by decide)⟩
        · exact hspaces.failure

/-- Lists of arguments are read alike, also the empty one. -/
theorem argumentList_respaced (h : w.Respaced move w') :
    ReadsAlike move id (argumentList w) (argumentList w') := by
  unfold argumentList
  rw [h.peek?]
  split
  · next hclose => exact .ok ⟨rfl, h.skip_one hclose (by decide) (by decide)⟩
  · exact arguments_respaced [] h

/-- **Calls are read alike**, with their spans moved. -/
theorem read_respaced (key : Key) (h : w.Respaced move w') :
    ReadsAlike move (FunctionCall.relocate move) (FunctionCall.read key w)
      (FunctionCall.read (key.relocate move) w') := by
  obtain ⟨hrun, hskip⟩ := h.skipWhile (p := Byte.isLetter) rfl rfl
  unfold FunctionCall.read
  dsimp only
  rw [hrun, h.atEnd, h.pos, hskip.peek?]
  split
  · split
    · exact h.truncated
    · exact h.failure
  · next hletters =>
    obtain ⟨name, -, hbytes⟩ := exists_name_of_letters
      (by simpa [List.isEmpty_iff] using hletters) fun b hb => Window.all_of_mem_run hb
    rw [← hbytes, readName_encode, readName_encode]
    dsimp only
    split
    · exact hskip.truncated
    · next b hb =>
      split
      · next hopen =>
        subst hopen
        rcases (argumentList_respaced
          (hskip.skip_one hb (by decide) (by decide)).skipSpaces).cases with
          ⟨e, hr, hr'⟩ | ⟨args, after, after', hr, hr', hafter⟩
        · rw [hr, hr']
          exact .error e
        · rw [hr, hr']
          refine .ok ⟨?_, hafter⟩
          dsimp only [id]
          rw [hafter.pos]
          rfl
      · exact hskip.failure

end FunctionCall

end RecordFilter
