import RecordFilter.Proofs.Reading.Fits

/-!
# What is in front of an unexpected byte

A byte is unexpected only where something else could have stood: what a reader has taken up to
it can always be gone on with.  `Completes` says so, with a bound on the bytes that it takes.
The readers of operators, connectors and literals have taken nothing yet; only the reader of
calls can be further on, behind a name or among arguments.

* `Completes.extend` — text around what is completed;
* `FunctionCall.completes` — a call goes on with three bytes at most.
-/

namespace RecordFilter

/-- What the window `w` holds up to `offset` can be gone on with, by at most `room` bytes, to
something of the kind `P`. -/
def Completes (P : List UInt8 → Prop) (room : Nat) (w : Window) (offset : Nat) : Prop :=
  ∃ taken after more, w.Takes taken after ∧ offset = after.pos ∧ more.length ≤ room ∧
    P (taken ++ more)

section Completes

variable {P Q : List UInt8 → Prop} {room : Nat} {w u after : Window} {taken text : List UInt8}
  {offset : Nat}

/-- Nothing is in front of the next byte, so everything is still to come. -/
theorem completes_here (more : List UInt8) (hmore : P more) :
    Completes P more.length w w.pos :=
  ⟨[], w, more, w.takes_nil, rfl, Nat.le_refl _, hmore⟩

/-- What can be completed can be completed with more room. -/
theorem Completes.mono {more : Nat} (h : Completes P room w offset) (hroom : room ≤ more) :
    Completes P more w offset := by
  obtain ⟨taken, after, rest, htakes, hoffset, hlength, hP⟩ := h
  exact ⟨taken, after, rest, htakes, hoffset, Nat.le_trans hlength hroom, hP⟩

/-- **What is completed inside is completed outside**, by what has to follow it there. -/
theorem Completes.extend (h : Completes P room u offset) (htakes : w.Takes text u)
    (tail : List UInt8) (hP : ∀ s, P s → Q (text ++ s ++ tail)) :
    Completes Q (room + tail.length) w offset := by
  obtain ⟨taken, after, more, htaken, hoffset, hlength, hmore⟩ := h
  refine ⟨text ++ taken, after, more ++ tail, htakes.trans htaken, hoffset, ?_, ?_⟩
  · rw [List.length_append]
    omega
  · simpa using hP _ hmore

end Completes

variable {w after : Window} {e : SyntaxError} {place : Place}

/-- An unexpected byte in place of an operator is the next one. -/
theorem Operator.offset_of_unexpected (h : Operator.read w = .error e)
    (he : e.violation = .unexpectedByte) : e.offset = w.pos := by
  unfold Operator.read Window.failure Window.truncated at h
  grind

/-- An unexpected byte in place of a connector is the next one. -/
theorem Connector.offset_of_unexpected (h : Connector.read w = .error e)
    (he : e.violation = .unexpectedByte) : e.offset = w.pos := by
  unfold Connector.read Connector.readSymbol Connector.readWord Window.failure
    Window.truncated at h
  grind

/-- A byte is unexpected for a literal only if no literal starts with it. -/
theorem Literal.Fails.offset_of_unexpected (h : Literal.Fails place w e)
    (he : e.violation = .unexpectedByte) : e.offset = w.pos := by
  cases h with
  | broken hbreaks => cases hbreaks <;> cases he
  | unexpected _ => rfl
  | unmatched _ _ _ _ => cases he

/-- The digit `1` is a literal. -/
theorem Value.writes_one : (Value.integer 1).Writes [0x31] :=
  .integer false (by decide) (by decide)

/-! ## Calls -/

namespace FunctionCall

/-- The bytes from the first argument of a call up to its closing parenthesis. -/
def IsArguments (bytes : List UInt8) : Prop :=
  ∃ value literal behind, ∃ forms : List ArgumentForm, Value.Writes value literal ∧
    (∀ a ∈ forms, a.WellFormed) ∧ bytes = literal ++ Byte.spaces behind ++ restBytes forms

/-- The bytes of a call. -/
def IsCall (bytes : List UInt8) : Prop := ∃ c : CallForm, c.WellFormed ∧ bytes = c.bytes

variable {value : Value} {literal bytes : List UInt8} {name : String}

/-- A value in front of the closing parenthesis is the last of some arguments. -/
theorem isArguments_last (h : value.Writes literal) (n : Nat) :
    IsArguments (literal ++ Byte.spaces n ++ [Byte.closeParen]) :=
  ⟨value, literal, n, [], h, by simp, rfl⟩

/-- A value and a comma go in front of arguments. -/
theorem IsArguments.cons (h : IsArguments bytes) (hfirst : value.Writes literal) (n k : Nat) :
    IsArguments (literal ++ Byte.spaces n ++ Byte.comma :: (Byte.spaces k ++ bytes)) := by
  obtain ⟨next, nextLiteral, behind, forms, hnext, hforms, rfl⟩ := h
  refine ⟨value, literal, n, ⟨k, next, nextLiteral, behind⟩ :: forms, hfirst, ?_, ?_⟩
  · intro a ha
    rcases List.mem_cons.mp ha with rfl | ha
    · exact hnext
    · exact hforms a ha
  · rw [restBytes_cons]

/-- A name and a parenthesis in front of arguments make a call. -/
theorem IsArguments.isCall (h : IsArguments bytes) (hname : IsName name) (n : Nat) :
    IsCall (Utf8.encode name ++ Byte.openParen :: (Byte.spaces n ++ bytes)) := by
  obtain ⟨value, literal, behind, forms, hvalue, hforms, rfl⟩ := h
  refine ⟨⟨name, 0, ⟨n, value, literal, behind⟩ :: forms⟩, ⟨hname, ?_⟩, ?_⟩
  · intro a ha
    rcases List.mem_cons.mp ha with rfl | ha
    · exact hvalue
    · exact hforms a ha
  · rw [CallForm.bytes, argumentBytes_cons]

/-- A call may have no arguments. -/
theorem isCall_empty (hname : IsName name) :
    IsCall (Utf8.encode name ++ [Byte.openParen, Byte.closeParen]) :=
  ⟨⟨name, 0, []⟩, ⟨hname, by simp⟩, rfl⟩

/-- Arguments up to an unexpected byte lack a last one at most. -/
theorem ArgumentsFail.completes (h : ArgumentsFail w e) (he : e.violation = .unexpectedByte) :
    Completes IsArguments 2 w e.offset := by
  induction h with
  | @literal w e h =>
      rw [h.offset_of_unexpected he]
      exact completes_here _ (isArguments_last Value.writes_one 0)
  | truncated => cases he
  | unexpected hwrites htakes _ =>
      exact ⟨_, _, [Byte.closeParen], htakes, rfl, by decide, isArguments_last hwrites _⟩
  | next hwrites htakes _ ih =>
      refine (ih he).extend htakes [] ?_
      intro s hs
      simpa using hs.cons hwrites _ _

/-- **A call up to an unexpected byte** lacks three bytes at most. -/
theorem completes {key : Key} (h : FunctionCall.read key w = .error e)
    (he : e.violation = .unexpectedByte) : Completes IsCall 3 w e.offset := by
  cases fails_of_read h with
  | truncated => cases he
  | noName _ => exact completes_here _ (isCall_empty (by decide : IsName "a"))
  | noOpening hname htakes _ =>
      exact ⟨_, _, [Byte.openParen, Byte.closeParen], htakes, rfl, by decide,
        isCall_empty hname⟩
  | arguments hname htakes h =>
      refine ((h.completes he).extend htakes [] ?_).mono (by decide)
      intro s hs
      simpa using hs.isCall hname _

end FunctionCall

end RecordFilter
