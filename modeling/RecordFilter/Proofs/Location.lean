import RecordFilter.Proofs.Machine.Failure
import RecordFilter.Proofs.Reading.Fits

/-!
# Where errors are

Every error points into the input, at a place that fits its violation: at the byte that is
wrong, at a parenthesis without a partner, at the clause that is one too many or too deep, or
at the end of what could be read.  That end is the end of the input, or the parenthesis that
closes the innermost group.

The machine that raises the error has come to it through text of its own window, so the place
fits that window because it fits the window of the reader; and the window lies in the input
where `Situated` says.

* `Reached.fits` — what a machine raises fits its window;
* `located_of_parseWith` — what a reading fails with fits the input.
-/

namespace RecordFilter

namespace Machine

variable {limits : Limits} {input : List UInt8} {depth : Nat} {w : Window} {m : Machine}
  {text : List UInt8} {b : UInt8} {e : SyntaxError}

/-! ## Windows of machines -/

/-- What is raised where a clause should begin fits the window. -/
theorem begin_fits (hb : m.window.peek? = some b) (h : m.begin limits b = .error e) :
    Fits m.window e := by
  have hhas := Window.has_of_peek? hb
  unfold begin at h
  dsimp only at h
  split at h
  · next hopen =>
    split at h
    · cases h
      exact .limitExceeded hhas (.inr ⟨.inl hopen, rfl⟩)
    · cases h
  split at h
  · next hletter =>
    split at h
    · cases h
      exact .limitExceeded hhas (.inr ⟨.inr hletter, rfl⟩)
    · cases h
  split at h
  · next hclose =>
    cases h
    exact .unmatchedGrouping hhas (.inr ⟨hclose, by decide⟩)
  · cases h
    exact .unexpectedByte hhas (by decide)

/-- Behind an opening parenthesis, the parenthesis stands where the state says. -/
theorem Reached.has_opening {opening : Nat} (h : Reached w text m)
    (hstate : m.state = .group opening) : w.Has Byte.openParen opening := by
  obtain ⟨front, rfl, rfl, -⟩ := h.of_group hstate
  obtain ⟨v, hfront, hopen⟩ := h.takes.split
  have hhas := (Window.has_of_peek? hopen.peek?_cons).of_takes hfront
  rw [hfront.pos_eq] at hhas
  exact hhas

/-- **What a machine raises fits its window.** -/
theorem Reached.fits (h : Reached w text m) (hraises : m.Raises limits depth e) :
    Fits w e := by
  -- The parenthesis of a group is behind the machine, and all else in front of it.
  cases h.failure hraises with
  | tooDeep hstate => exact .limitExceeded (h.has_opening hstate) (.inl ⟨rfl, rfl⟩)
  | unclosed hstate => exact .unmatchedGrouping (h.has_opening hstate) (.inl ⟨rfl, rfl⟩)
  | truncated hpart => exact (Fits.truncatedInput hpart).of_takes h.takes
  | start _ hb hbegin => exact (begin_fits hb hbegin).of_takes h.takes
  | subject _ hread => exact (Operator.fits hread).of_takes h.takes
  | call _ hread => exact (FunctionCall.fits hread).of_takes h.takes
  | operand _ hread => exact (Literal.fits hread).of_takes h.takes
  | connector _ hread => exact (Connector.fits hread).of_takes h.takes

/-- What a machine under way raises fits the window it was started in. -/
theorem UnderWay.fits (h : UnderWay limits input depth w m)
    (hraises : m.Raises limits depth e) : Fits w e := by
  obtain ⟨text, htext⟩ := h.reached
  obtain ⟨n, hn⟩ := w.takes_spaces
  exact (htext.fits hraises).of_takes hn

/-! ## Windows in the input -/

/-- A byte of the window of a machine is the byte of the input at the same offset. -/
theorem Situated.getElem?_of_has {front back : List UInt8} {offset : Nat}
    (h : Situated input depth front w back) (hb : w.Has b offset) :
    input[offset]? = some b := by
  obtain ⟨k, rfl, hk⟩ := hb
  have hlt := (List.getElem?_eq_some_iff.mp hk).1
  rw [h.input_eq, h.pos_eq, List.getElem?_append_right (Nat.le_add_right _ _),
    Nat.add_sub_cancel_left, List.getElem?_append_left hlt, hk]

/-- The parenthesis at offset `closing` closes the group whose machine raises the error: of
the groups that are being read, the innermost. -/
def ClosesInnermost (limits : Limits) (input : List UInt8) (e : SyntaxError) (closing : Nat) :
    Prop :=
  ∃ front content back depth m,
    input = front ++ Byte.openParen :: (content ++ Byte.closeParen :: back) ∧
      closing = front.length + 1 + content.length ∧ Grouping.Balanced content ∧
      UnderWay limits input (depth + 1) ⟨front.length + 1, content⟩ m ∧
      m.Raises limits (depth + 1) e

/-- There is a closing parenthesis at its offset. -/
theorem ClosesInnermost.getElem? {closing : Nat} (h : ClosesInnermost limits input e closing) :
    input[closing]? = some Byte.closeParen := by
  obtain ⟨front, content, back, depth, m, rfl, rfl, -⟩ := h
  rw [Nat.add_assoc, List.getElem?_append_right (Nat.le_add_right _ _),
    Nat.add_sub_cancel_left, Nat.add_comm 1, List.getElem?_cons_succ,
    List.getElem?_append_right (Nat.le_refl _), Nat.sub_self]
  rfl

/-- The end of a window is the end of the input, or of the innermost group. -/
theorem UnderWay.stop_cases (h : UnderWay limits input depth w m)
    (hraises : m.Raises limits depth e) :
    w.stop = input.length ∨ ClosesInnermost limits input e w.stop := by
  obtain ⟨front, back, hw⟩ := h.situated
  cases depth with
  | zero =>
      have hback := hw.outermost rfl
      refine .inl ?_
      rw [Window.stop, hw.input_eq, hback, hw.pos_eq, List.append_nil, List.length_append]
  | succ depth =>
      obtain ⟨⟨before, rfl⟩, ⟨behind, rfl⟩, hbalanced⟩ := hw.inside (Nat.succ_pos depth)
      have hpos : w.pos = before.length + 1 := by
        rw [hw.pos_eq, List.length_append, List.length_singleton]
      refine .inr ⟨before, w.rest, behind, depth, m, ?_, ?_, hbalanced, ?_, hraises⟩
      · rw [hw.input_eq, List.append_assoc]
        rfl
      · rw [Window.stop, hpos]
      · rw [← hpos]
        exact h

end Machine

/-- An error that is raised while `input` is read points to a place that fits. -/
structure Located (limits : Limits) (input : List UInt8) (e : SyntaxError) : Prop where
  atByte : e.violation = .unexpectedByte ∨ e.violation = .invalidLiteral →
    e.offset < input.length
  atParenthesis : e.violation = .unmatchedGrouping →
    input[e.offset]? = some Byte.openParen ∨ input[e.offset]? = some Byte.closeParen
  atEnd : e.violation = .truncatedInput → e.offset = input.length ∨
    input[e.offset]? = some Byte.closeParen ∧
      Machine.ClosesInnermost limits input e e.offset
  atLimit : e.violation = .limitExceeded →
    (e.offset = limits.inputLength.toNat ∧ e.offset < input.length) ∨
      ∃ b, input[e.offset]? = some b ∧ (b = Byte.openParen ∨ Byte.isLetter b = true)
  literal : e.violation = .invalidLiteral → e.part = .value ∨ e.part = .call
  key : e.part = .key → e.violation = .truncatedInput
  group : e.part = .group →
    (e.violation = .unmatchedGrouping ∨ e.violation = .limitExceeded) ∧
      input[e.offset]? = some Byte.openParen

/-- **Every error points into the input**, at a place that fits its violation, and the part
that it tells fits too. -/
theorem located_of_parseWith {limits : Limits} {input : List UInt8} {e : SyntaxError}
    (h : parseWith limits input = .error e) : Located limits input e := by
  rcases parseWith_eq_error_iff.mp h with ⟨hlong, rfl⟩ | ⟨depth, w, m, hm, hraises⟩
  · constructor <;> simp [hlong]
  obtain ⟨front, back, hw⟩ := hm.situated
  have hbyte : ∀ {b offset}, w.Has b offset → input[offset]? = some b :=
    fun hb => hw.getElem?_of_has hb
  have hlt : ∀ {b offset}, w.Has b offset → offset < input.length :=
    fun hb => (List.getElem?_eq_some_iff.mp (hbyte hb)).1
  have hstop := hm.stop_cases hraises
  cases hm.fits hraises with
  | unexpectedByte hb hpart => constructor <;> simp [hlt hb, hpart]
  | invalidLiteral hb hpart => rcases hpart with rfl | rfl <;> constructor <;> simp [hlt hb]
  | truncatedInput hpart =>
      have hend := hstop.imp_right fun hcloses => And.intro hcloses.getElem? hcloses
      constructor <;> simp [hpart, hend]
  | unmatchedGrouping hb hpart =>
      have hat := hbyte hb
      rcases hpart with ⟨rfl, rfl⟩ | ⟨rfl, hpart⟩
      · constructor <;> simp [hat]
      · constructor <;> simp [hat, hpart]
  | limitExceeded hb hpart =>
      have hat := hbyte hb
      rcases hpart with ⟨rfl, rfl⟩ | ⟨hclause, rfl⟩
      · constructor <;> simp [hat]
      · constructor <;> simp [hat, hclause]

/-- The key in `(a)` lacks an operator at the parenthesis that closes the group. -/
theorem located_of_parseWith_bareKey :
    let input := Utf8.encode "(a)"
    let error : SyntaxError := ⟨.truncatedInput, 2, .key, "an operator after the key"⟩
    parseWith .standard input = .error error ∧
      Machine.ClosesInnermost .standard input error 2 := by
  intro input error
  have hread : parseWith .standard input = .error error := by
    with_unfolding_all rfl
  refine ⟨hread, ?_⟩
  rcases (located_of_parseWith hread).atEnd rfl with hend | ⟨-, hcloses⟩
  · exact absurd hend (by decide)
  · exact hcloses

end RecordFilter
