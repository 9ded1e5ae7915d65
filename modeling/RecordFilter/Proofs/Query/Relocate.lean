import RecordFilter.SyntaxError
import RecordFilter.Query.Basic

/-!
# Moving offsets

The same expression can stand at another place, or with other blanks, in another input.
What is read there is the same up to where it stands: every offset has moved along one
map.  Trees move with all their spans, and errors with the offset that they tell.

* `Query.relocate`, `SyntaxError.relocate` — the tree and the error at the other place;
* `Moves` — two readings that come out the same up to the map of the offsets.
-/

namespace RecordFilter

variable (move : Nat → Nat)

def Span.relocate (s : Span) : Span := ⟨move s.start, move s.stop⟩

def Key.relocate (k : Key) : Key := { k with span := k.span.relocate move }

def FunctionCall.relocate (c : FunctionCall) : FunctionCall :=
  { c with key := c.key.relocate move, span := c.span.relocate move }

def Subject.relocate : Subject → Subject
  | key k => .key (k.relocate move)
  | call c => .call (c.relocate move)

def Comparison.relocate (c : Comparison) : Comparison :=
  { c with subject := c.subject.relocate move }

/-- A query whose spans have all moved.  Nothing else changes. -/
def Query.relocate : Query → Query
  | comparison c => comparison (c.relocate move)
  | group inner => group inner.relocate
  | logical lhs connector rhs => logical lhs.relocate connector rhs.relocate

/-- An error that is told at another offset. -/
def SyntaxError.relocate (e : SyntaxError) : SyntaxError := { e with offset := move e.offset }

/-- Two readings come out the same up to `move`: both fail, with one error at the two
places, or both succeed with results that `R` relates. -/
inductive Moves {α β : Type} (R : α → β → Prop) :
    Except SyntaxError α → Except SyntaxError β → Prop
  | error (e : SyntaxError) : Moves R (.error e) (.error (e.relocate move))
  | ok {x : α} {y : β} (h : R x y) : Moves R (.ok x) (.ok y)

variable {move}

/-- Two readings that move together both fail or both succeed. -/
theorem Moves.cases {α β : Type} {R : α → β → Prop} {r : Except SyntaxError α}
    {r' : Except SyntaxError β} (h : Moves move R r r') :
    (∃ e, r = .error e ∧ r' = .error (e.relocate move)) ∨
      ∃ x y, r = .ok x ∧ r' = .ok y ∧ R x y := by
  cases h with
  | error e => exact .inl ⟨e, rfl, rfl⟩
  | ok h => exact .inr ⟨_, _, rfl, rfl, h⟩

/-- What is related may be related in a weaker way. -/
theorem Moves.mono {α β : Type} {R S : α → β → Prop} {r : Except SyntaxError α}
    {r' : Except SyntaxError β} (h : Moves move R r r') (hRS : ∀ x y, R x y → S x y) :
    Moves move S r r' := by
  cases h with
  | error e => exact .error e
  | ok h => exact .ok (hRS _ _ h)

end RecordFilter
