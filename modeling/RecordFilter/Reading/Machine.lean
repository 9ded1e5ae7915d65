import RecordFilter.Assembly
import RecordFilter.Reading.Call
import RecordFilter.Reading.Grouping
import RecordFilter.Limits
import RecordFilter.Reading.Symbol

/-!
# The machine that reads expressions

An expression is read in one pass by a machine that is always in one of seven states.
A group is read by a machine of its own, whose window ends before the closing
parenthesis of the group; so a closing parenthesis that a machine meets outside a
string has no partner.  Offsets are offsets into the whole input in every window, and
clauses are counted over the whole expression.

* `measure_step_lt` — every step makes the measure `2 * unread + (1 inside a key)`
  smaller, so the machine halts;
* `run_eq` — a run is a step followed by a run.
-/

namespace RecordFilter

/-- What a machine has read of the clause that is under way. -/
inductive State where
  /-- Nothing: a clause has to start. -/
  | start
  /-- Letters of a key, reversed, the first of which stands at offset `start`. -/
  | key (start : Nat) (letters : List UInt8)
  /-- A subject: an operator has to follow. -/
  | subject (s : Subject)
  /-- A key and a point: a function has to follow. -/
  | call (k : Key)
  /-- A parenthesis, at offset `opening`: a group has to follow. -/
  | group (opening : Nat)
  /-- A subject and an operator: a value has to follow. -/
  | operand (s : Subject) (operator : Operator)
  /-- A whole clause: a connector or the end has to follow. -/
  | connector

namespace State

/-- The part of the expression that is under way. -/
def part : State → Part
  | start => .clause
  | key .. => .key
  | subject _ => .operator
  | call _ => .call
  | group _ => .group
  | operand .. => .value
  | connector => .connector

/-- What is expected where a group does not end. -/
def groupHint : String := "a matching `)`"

/-- What is expected in a state. -/
def hint : State → String
  | start => Hint.clause
  | key .. => "an operator after the key"
  | subject _ => Operator.validSymbols
  | call _ => "a function call like `.name(args)`"
  | group _ => groupHint
  | operand .. => Hint.value
  | connector => Connector.validSymbols

/-- Whether the letters of a key are under way. -/
def isKey : State → Bool
  | key .. => true
  | _ => false

end State

/-- A machine that reads the window `window`.  It has begun `clauses` clauses of the
whole expression, and `assembly` holds the clauses and connectors of its own window. -/
structure Machine where
  window : Window
  state : State
  assembly : Assembly
  clauses : Nat

namespace Machine

/-- The machine in front of a window, when `clauses` clauses have begun before. -/
def start (window : Window) (clauses : Nat) : Machine :=
  ⟨window.skipSpaces, .start, .empty, clauses⟩

/-- What every step makes smaller.  Only the end of a key takes no byte. -/
def measure (m : Machine) : Nat :=
  2 * m.window.rest.length + if m.state.isKey then 1 else 0

variable (limits : Limits)

/-- Begins the clause whose first byte is `b`, if there may be one more. -/
def begin (m : Machine) (b : UInt8) : Except SyntaxError Machine :=
  let begun (state : State) : Except SyntaxError Machine :=
    if limits.clauses.toNat < m.clauses + 1 then
      m.window.failure .limitExceeded .clause "fewer clauses (see max_clauses)"
    else .ok { m with window := m.window.skip 1, state := state, clauses := m.clauses + 1 }
  if b = Byte.openParen then begun (.group m.window.pos)
  else if Byte.isLetter b then begun (.key m.window.pos [b])
  else if b = Byte.closeParen then
    m.window.failure .unmatchedGrouping .clause Hint.clause
  else m.window.failure .unexpectedByte .clause Hint.clause

/-- Reads the byte `b` behind letters of a key: one more letter, or the end of the key.
A blank or a point behind the key is taken with it. -/
def continueKey (m : Machine) (start : Nat) (letters : List UInt8) (b : UInt8) :
    Except SyntaxError Machine :=
  if Byte.isLetter b then
    .ok { m with window := m.window.skip 1, state := .key start (b :: letters) }
  else
    match readName start letters.reverse .key with
    | .error e => .error e
    | .ok name =>
        let key : Key := ⟨name, ⟨start, m.window.pos⟩⟩
        if b = Byte.space then
          .ok { m with window := (m.window.skip 1).skipSpaces, state := .subject (.key key) }
        else if b = Byte.dot then
          .ok { m with window := (m.window.skip 1).skipSpaces, state := .call key }
        else .ok { m with state := .subject (.key key) }

/-- Reads the operator behind a subject. -/
def readOperator (m : Machine) (subject : Subject) : Except SyntaxError Machine :=
  match Operator.read m.window with
  | .error e => .error e
  | .ok (operator, after) =>
      .ok { m with window := after.skipSpaces, state := .operand subject operator }

/-- Reads the function that is applied to a key. -/
def readCall (m : Machine) (key : Key) : Except SyntaxError Machine :=
  match FunctionCall.read key m.window with
  | .error e => .error e
  | .ok (call, after) =>
      .ok { m with window := after.skipSpaces, state := .subject (.call call) }

/-- Reads the value that ends a comparison. -/
def readOperand (m : Machine) (subject : Subject) (operator : Operator) :
    Except SyntaxError Machine :=
  match Literal.read .operand m.window with
  | .error e => .error e
  | .ok (value, after) =>
      .ok { m with
        window := after.skipSpaces
        state := .connector
        assembly := m.assembly.pushClause (.comparison ⟨subject, operator, value⟩) }

/-- Reads the connector behind a clause. -/
def readConnector (m : Machine) : Except SyntaxError Machine :=
  match Connector.read m.window with
  | .error e => .error e
  | .ok (connector, after) =>
      .ok { m with
        window := after.skipSpaces
        state := .start
        assembly := m.assembly.pushConnector connector }

/-- Reads the group that the parenthesis at offset `opening` opens, inside `depth`
groups.  Its contents are read by `nested`, which is given their window and the number
of clauses that have begun before, and gives the query and the number after it. -/
def readGroup (depth : Nat) (m : Machine) (opening : Nat)
    (nested : (w : Window) → w.rest.length < m.window.rest.length → Nat →
      Except SyntaxError (Query × Nat)) : Except SyntaxError Machine :=
  if limits.depth.toNat < depth + 1 then
    .error ⟨.limitExceeded, opening, .group, "shallower nesting (see max_depth)"⟩
  else
    match h : Grouping.closing? m.window.rest with
    | none => .error ⟨.unmatchedGrouping, opening, .group, State.groupHint⟩
    | some inside =>
        match nested ⟨m.window.pos, m.window.rest.take inside⟩
            (by have := Grouping.closing?_lt h; simp only [List.length_take]; omega)
            m.clauses with
        | .error e => .error e
        | .ok (inner, clauses) =>
            .ok {
              window := (m.window.skip (inside + 1)).skipSpaces
              state := .connector
              assembly := m.assembly.pushClause (.group inner)
              clauses := clauses }

/-- One step of a machine inside `depth` groups, in front of the byte `b`.  The
contents of a group are read by `nested`. -/
def stepWith (depth : Nat) (m : Machine) (b : UInt8)
    (nested : (w : Window) → w.rest.length < m.window.rest.length → Nat →
      Except SyntaxError (Query × Nat)) : Except SyntaxError Machine :=
  match m.state with
  | .start => m.begin limits b
  | .key start letters => m.continueKey start letters b
  | .subject s => m.readOperator s
  | .call k => m.readCall k
  | .group opening => m.readGroup limits depth opening nested
  | .operand s operator => m.readOperand s operator
  | .connector => m.readConnector

/-- What a machine has read when its window ends: the query and the number of clauses
that have begun.  A clause that is under way is an error. -/
def finish (m : Machine) : Except SyntaxError (Query × Nat) :=
  match m.state with
  | .connector =>
      match m.assembly.result? with
      | some query => .ok (query, m.clauses)
      | none => m.window.truncated .connector Hint.clause
  | .group opening => .error ⟨.unmatchedGrouping, opening, .group, State.groupHint⟩
  | state => m.window.truncated state.part state.hint

variable {limits}

/-- A clause begins with its first byte. -/
theorem measure_begin_lt {m next : Machine} {b : UInt8} (hb : m.window.peek? = some b)
    (hstate : m.state = .start) (h : m.begin limits b = .ok next) :
    next.measure < m.measure := by
  have hpos := Window.length_pos_of_peek? hb
  unfold begin Window.failure at h
  dsimp only at h
  grind [measure, State.isKey, Window.length_skip]

/-- A key takes a letter or ends. -/
theorem measure_continueKey_lt {m next : Machine} {b : UInt8} {start : Nat}
    {letters : List UInt8} (hb : m.window.peek? = some b)
    (hstate : m.state = .key start letters) (h : m.continueKey start letters b = .ok next) :
    next.measure < m.measure := by
  have hpos := Window.length_pos_of_peek? hb
  have hspaces := (m.window.skip 1).length_skipSpaces_le
  rw [Window.length_skip] at hspaces
  unfold continueKey at h
  grind [measure, State.isKey, Window.length_skip]

/-- A group takes at least its closing parenthesis. -/
theorem measure_readGroup_lt {m next : Machine} {depth opening : Nat}
    {nested : (w : Window) → w.rest.length < m.window.rest.length → Nat →
      Except SyntaxError (Query × Nat)}
    (h : m.readGroup limits depth opening nested = .ok next) :
    next.measure < m.measure := by
  unfold readGroup at h
  split at h
  · cases h
  split at h
  · cases h
  · next inside hinside =>
    have hlt := Grouping.closing?_lt hinside
    have hspaces := (m.window.skip (inside + 1)).length_skipSpaces_le
    rw [Window.length_skip] at hspaces
    split at h
    · cases h
    · cases h
      simp only [measure, State.isKey]
      grind

/-- Progress: every step makes the measure smaller. -/
theorem measure_stepWith_lt {m next : Machine} {depth : Nat} {b : UInt8}
    {nested : (w : Window) → w.rest.length < m.window.rest.length → Nat →
      Except SyntaxError (Query × Nat)} (hb : m.window.peek? = some b)
    (h : m.stepWith limits depth b nested = .ok next) : next.measure < m.measure := by
  unfold stepWith at h
  split at h
  · next hstate => exact measure_begin_lt hb hstate h
  · next hstate => exact measure_continueKey_lt hb hstate h
  · unfold readOperator at h
    split at h
    · cases h
    · next operator after hread =>
      cases h
      have hlt := Operator.length_operator_lt hread
      have hspaces := after.length_skipSpaces_le
      grind [measure, State.isKey]
  · unfold readCall at h
    split at h
    · cases h
    · next call after hread =>
      cases h
      have hlt := FunctionCall.length_call_lt hread
      have hspaces := after.length_skipSpaces_le
      grind [measure, State.isKey]
  · exact measure_readGroup_lt h
  · unfold readOperand at h
    split at h
    · cases h
    · next value after hread =>
      cases h
      have hlt := Literal.length_read_lt hread
      have hspaces := after.length_skipSpaces_le
      grind [measure, State.isKey]
  · unfold readConnector at h
    split at h
    · cases h
    · next connector after hread =>
      cases h
      have hlt := Connector.length_connector_lt hread
      have hspaces := after.length_skipSpaces_le
      grind [measure, State.isKey]

/-- The machine in front of a window has nothing but the window to read. -/
theorem measure_start_le (w : Window) (clauses : Nat) :
    (start w clauses).measure ≤ 2 * w.rest.length := by
  have hspaces := w.length_skipSpaces_le
  simp only [measure, start, State.isKey]
  grind

variable (limits)

/-- Runs a machine inside `depth` groups to the end of its window. -/
def run (depth : Nat) (m : Machine) : Except SyntaxError (Query × Nat) :=
  match _hb : m.window.peek? with
  | none => m.finish
  | some b =>
      match _hstep : m.stepWith limits depth b fun w hw clauses =>
          run (depth + 1) (start w clauses) with
      | .error e => .error e
      | .ok next => run depth next
termination_by m.measure
decreasing_by
  · have hstart := measure_start_le w clauses
    unfold measure at hstart ⊢
    omega
  · exact measure_stepWith_lt _hb _hstep

/-- Reads a whole window inside `depth` groups, when `clauses` clauses have begun
before. -/
def readWindow (depth : Nat) (w : Window) (clauses : Nat) :
    Except SyntaxError (Query × Nat) :=
  run limits depth (start w clauses)

/-- One step of a machine inside `depth` groups, in front of the byte `b`. -/
def step (depth : Nat) (m : Machine) (b : UInt8) : Except SyntaxError Machine :=
  m.stepWith limits depth b fun w _ clauses => readWindow limits (depth + 1) w clauses

/-- Every step makes the measure smaller. -/
theorem measure_step_lt {m next : Machine} {depth : Nat} {b : UInt8}
    (hb : m.window.peek? = some b) (h : m.step limits depth b = .ok next) :
    next.measure < m.measure :=
  measure_stepWith_lt hb h

/-- The step that reads a group: the contents are read as a window of their own. -/
theorem step_group {m : Machine} {opening : Nat} (depth : Nat) (b : UInt8)
    (hstate : m.state = .group opening) :
    m.step limits depth b =
      if limits.depth.toNat < depth + 1 then
        .error ⟨.limitExceeded, opening, .group, "shallower nesting (see max_depth)"⟩
      else
        match Grouping.closing? m.window.rest with
        | none => .error ⟨.unmatchedGrouping, opening, .group, State.groupHint⟩
        | some inside =>
            match readWindow limits (depth + 1) ⟨m.window.pos, m.window.rest.take inside⟩
                m.clauses with
            | .error e => .error e
            | .ok (inner, clauses) =>
                .ok {
                  window := (m.window.skip (inside + 1)).skipSpaces
                  state := .connector
                  assembly := m.assembly.pushClause (.group inner)
                  clauses := clauses } := by
  unfold step stepWith
  rw [hstate]
  dsimp only
  unfold readGroup
  split
  · rfl
  · split <;> simp_all

/-- A run is a step followed by a run, and ends where the window ends. -/
theorem run_eq (depth : Nat) (m : Machine) :
    run limits depth m =
      match m.window.peek? with
      | none => m.finish
      | some b =>
          match m.step limits depth b with
          | .error e => .error e
          | .ok next => run limits depth next := by
  rw [run]
  split
  · next hb => rw [hb]
  · next b hb =>
    rw [hb]
    dsimp only [step, readWindow]
    split <;> simp_all

end Machine

end RecordFilter
