import RecordFilter.Proofs.Reading.Fits

/-!
# Which readers complain about parentheses

Of the readers of single tokens only two ever report a parenthesis without a partner: the
reader of connectors, and the reader of literals behind an operator.  Both do so in front
of a closing parenthesis.

* `Connector.offset_of_unmatched`, `Literal.offset_of_unmatched` — where they do;
* `Operator.not_unmatched`, `FunctionCall.not_unmatched` — the others never do.
-/

namespace RecordFilter

variable {w after : Window} {e : SyntaxError} {place : Place}

/-- Reading an operator blames no parenthesis. -/
theorem Operator.not_unmatched (h : Operator.read w = .error e) :
    e.violation ≠ .unmatchedGrouping := by
  unfold Operator.read Window.failure Window.truncated at h
  grind

/-- Reading a connector blames a parenthesis only if it closes one that is not open there. -/
theorem Connector.offset_of_unmatched (h : Connector.read w = .error e)
    (he : e.violation = .unmatchedGrouping) :
    e.offset = w.pos ∧ w.peek? = some Byte.closeParen := by
  unfold Connector.read Connector.readSymbol Connector.readWord Window.failure
    Window.truncated at h
  grind

theorem readName_not_unmatched {start : Nat} {bytes : List UInt8} {part : Part}
    (h : readName start bytes part = .error e) : e.violation ≠ .unmatchedGrouping := by
  unfold readName at h
  grind

namespace Literal

/-- A literal is reported for a closing parenthesis in its place or right behind it, and
never among arguments. -/
theorem offset_of_unmatched (h : Literal.read place w = .error e)
    (he : e.violation = .unmatchedGrouping) :
    place = .operand ∧ ∃ literal after, w.Takes literal after ∧
      (literal = [] ∨ ∃ value : Value, value.Writes literal) ∧
      e.offset = after.pos ∧ after.peek? = some Byte.closeParen := by
  cases fails_of_read h with
  | broken hbreaks => cases hbreaks <;> cases he
  | unexpected _ => cases he
  | unmatched hplace htakes hliteral hclose =>
      exact ⟨hplace, _, _, htakes, hliteral, rfl, hclose⟩

end Literal

namespace FunctionCall

/-- Reading arguments blames no parenthesis. -/
theorem ArgumentsFail.not_unmatched (h : ArgumentsFail w e) :
    e.violation ≠ .unmatchedGrouping := by
  induction h with
  | @literal w e h =>
      cases h with
      | broken hbreaks => cases hbreaks <;> exact Violation.noConfusion
      | unexpected _ => exact Violation.noConfusion
      | unmatched hplace _ _ _ => cases hplace
  | truncated => exact Violation.noConfusion
  | unexpected _ _ _ => exact Violation.noConfusion
  | next _ _ _ ih => exact ih

theorem not_unmatched {key : Key} (h : FunctionCall.read key w = .error e) :
    e.violation ≠ .unmatchedGrouping := by
  cases fails_of_read h with
  | truncated => exact Violation.noConfusion
  | noName _ => exact Violation.noConfusion
  | noOpening _ _ _ => exact Violation.noConfusion
  | arguments _ _ h => exact h.not_unmatched

end FunctionCall

end RecordFilter
