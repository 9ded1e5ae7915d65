import RecordFilter.Reading.Machine
import RecordFilter.Proofs.Grammar.Phrase
import RecordFilter.Proofs.Grouping.Balance
import RecordFilter.Proofs.Text.Utf8

/-!
# What a step does, state by state

A step reads what belongs to its state.  Behind the letters of a key it is told what the
key is, and in front of the balanced contents of a group what their reading comes to.

* `readOperator_eq_error_iff` and the like — a step fails as its reader does;
* `continueKey_end` — what ends the letters of a key;
* `step_group_of_balanced` — a group goes on behind its closing parenthesis.
-/

namespace RecordFilter.Machine

variable {limits : Limits} {depth : Nat} {m : Machine} {after : Window} {b : UInt8}

/-- In front of a clause a step begins it. -/
theorem step_start (h : m.state = .start) : m.step limits depth b = m.begin limits b := by
  unfold step stepWith
  rw [h]

/-- In a key a step goes on with it. -/
theorem step_key {start : Nat} {letters : List UInt8} (h : m.state = .key start letters) :
    m.step limits depth b = m.continueKey start letters b := by
  unfold step stepWith
  rw [h]

/-- Behind a subject a step reads an operator. -/
theorem step_subject {s : Subject} (h : m.state = .subject s) :
    m.step limits depth b = m.readOperator s := by
  unfold step stepWith
  rw [h]

theorem step_call {k : Key} (h : m.state = .call k) :
    m.step limits depth b = m.readCall k := by
  unfold step stepWith
  rw [h]

theorem step_operand {s : Subject} {o : Operator} (h : m.state = .operand s o) :
    m.step limits depth b = m.readOperand s o := by
  unfold step stepWith
  rw [h]

theorem step_connector (h : m.state = .connector) :
    m.step limits depth b = m.readConnector := by
  unfold step stepWith
  rw [h]

/-! ## Readings that fail

A step that reads a token fails as the reader of the token does. -/

section Readings

variable {e : SyntaxError}

/-- Where an operator is due, only reading it can fail. -/
theorem readOperator_eq_error_iff {s : Subject} :
    m.readOperator s = .error e ↔ Operator.read m.window = .error e := by
  unfold readOperator
  cases Operator.read m.window <;> simp

theorem readCall_eq_error_iff {k : Key} :
    m.readCall k = .error e ↔ FunctionCall.read k m.window = .error e := by
  unfold readCall
  cases FunctionCall.read k m.window <;> simp

theorem readOperand_eq_error_iff {s : Subject} {o : Operator} :
    m.readOperand s o = .error e ↔ Literal.read .operand m.window = .error e := by
  unfold readOperand
  cases Literal.read .operand m.window <;> simp

theorem readConnector_eq_error_iff :
    m.readConnector = .error e ↔ Connector.read m.window = .error e := by
  unfold readConnector
  cases Connector.read m.window <;> simp

end Readings

/-! ## Keys and groups -/

/-- The letters behind a name end it: a blank or a point goes with it. -/
theorem continueKey_end {name : String} {start : Nat}
    (hpos : m.window.pos = start + (Utf8.encode name).length)
    (hb : Byte.isLetter b = false) :
    m.continueKey start (Utf8.encode name).reverse b =
      let key := SubjectForm.keyAt name start
      if b = Byte.space then
        .ok { m with window := (m.window.skip 1).skipSpaces, state := .subject (.key key) }
      else if b = Byte.dot then
        .ok { m with window := (m.window.skip 1).skipSpaces, state := .call key }
      else .ok { m with state := .subject (.key key) } := by
  rw [continueKey, if_neg (by rw [hb]; decide), List.reverse_reverse, readName_encode]
  dsimp only
  rw [hpos]
  rfl

/-- A group with balanced contents is read by a machine of its own, and the reading goes on
behind its closing parenthesis. -/
theorem step_group_of_balanced {opening : Nat} {content : List UInt8}
    (hstate : m.state = .group opening)
    (htakes : m.window.Takes (content ++ [Byte.closeParen]) after)
    (hcontent : Grouping.Balanced content) :
    m.step limits depth b =
      if limits.depth.toNat < depth + 1 then
        .error ⟨.limitExceeded, opening, .group, "shallower nesting (see max_depth)"⟩
      else
        match readWindow limits (depth + 1) ⟨m.window.pos, content⟩ m.clauses with
        | .error e => .error e
        | .ok (inner, clauses) => .ok ⟨after.skipSpaces, .connector,
            m.assembly.pushClause (.group inner), clauses⟩ := by
  have hrest : m.window.rest = content ++ Byte.closeParen :: after.rest := by
    rw [htakes.rest_eq, List.append_assoc]
    rfl
  have hclosing : Grouping.closing? m.window.rest = some content.length := by
    rw [hrest]
    exact Grouping.closing?_of_balanced hcontent after.rest
  have hcontents : m.window.rest.take content.length = content := by
    rw [hrest, List.take_left]
  have hafter : m.window.skip (content.length + 1) = after := by
    rw [← htakes.skip_eq, List.length_append, List.length_singleton]
  have hstep := step_group limits depth b hstate
  rw [hclosing] at hstep
  dsimp only at hstep
  rw [hcontents, hafter] at hstep
  exact hstep

end RecordFilter.Machine
