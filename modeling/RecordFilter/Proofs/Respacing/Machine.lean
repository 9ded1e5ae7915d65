import RecordFilter.Proofs.Machine.Phrase
import RecordFilter.Proofs.Machine.Progress
import RecordFilter.Proofs.Respacing.Reading

/-!
# Two machines side by side

Two machines stand in front of windows that differ in their blanks only, and what they
have read so far differs by a map of offsets.  Then they go on side by side: a step of the
one fails exactly where the step of the other fails, and otherwise leaves them side by
side again.  The second may stand deeper and may have begun more clauses, if its limits
are that much greater or out of reach for both.

* `Respaced.step` — one step of both;
* `run_respaced`, `readWindow_respaced` — the two runs, whatever the bytes are.
-/

namespace RecordFilter

variable {move : Nat → Nat}

/-! ## Assemblies and states -/

namespace Assembly

/-- An assembly whose tree has moved. -/
def relocate (move : Nat → Nat) (a : Assembly) : Assembly :=
  { a with root := a.root.map (Query.relocate move) }

/-- A clause is pushed wherever its spans point. -/
theorem pushClause_relocate (a : Assembly) (clause : Query) :
    (a.relocate move).pushClause (clause.relocate move) =
      (a.pushClause clause).relocate move := by
  obtain ⟨root, pending, malformed⟩ := a
  cases root <;> cases pending <;> rfl

/-- A connector is pushed wherever spans point. -/
theorem pushConnector_relocate (a : Assembly) (connector : Connector) :
    (a.relocate move).pushConnector connector =
      (a.pushConnector connector).relocate move := by
  obtain ⟨root, pending, malformed⟩ := a
  cases root <;> rfl

/-- The tree that is held is moved with the assembly. -/
theorem result?_relocate (a : Assembly) :
    (a.relocate move).result? = a.result?.map (Query.relocate move) := by
  unfold result? relocate
  split <;> rfl

end Assembly

/-- What has been read of a clause, at the other place.  A key under way has letters. -/
inductive State.Moved (move : Nat → Nat) : State → State → Prop
  | start : Moved move .start .start
  | key {start : Nat} {letters : List UInt8} (hne : letters ≠ [])
      (hletters : ∀ b ∈ letters, Byte.isLetter b = true) :
      Moved move (.key start letters) (.key (move start) letters)
  | subject (s : Subject) : Moved move (.subject s) (.subject (s.relocate move))
  | call (k : Key) : Moved move (.call k) (.call (k.relocate move))
  | group (opening : Nat) : Moved move (.group opening) (.group (move opening))
  | operand (s : Subject) (operator : Operator) :
      Moved move (.operand s operator) (.operand (s.relocate move) operator)
  | connector : Moved move .connector .connector

/-- Up to `bound`, a number of clauses is refused under `limits` exactly if `more` clauses
more are refused under `limits'`, and so it is with groups inside each other. -/
structure Limits.Matches (limits limits' : Limits) (bound more deeper : Nat) : Prop where
  clauses : ∀ n, n ≤ bound → (limits.clauses.toNat < n ↔ limits'.clauses.toNat < n + more)
  depth : ∀ n, n ≤ bound → (limits.depth.toNat < n ↔ limits'.depth.toNat < n + deeper)

theorem Limits.matches_self (limits : Limits) (bound : Nat) :
    limits.Matches limits bound 0 0 :=
  ⟨fun _ _ => Iff.rfl, fun _ _ => Iff.rfl⟩

/-- A whole window has no more clauses than bytes. -/
theorem Machine.count_le_of_readWindow {limits : Limits} {depth clauses count : Nat}
    {w : Window} {q : Query} (h : readWindow limits depth w clauses = .ok (q, count)) :
    count ≤ clauses + w.rest.length := by
  obtain ⟨e, he, hbytes, -⟩ := derives_of_readWindow h
  have hread := h.symm.trans (readWindow_expression he hbytes.symm depth)
  have hsites := e.length_sites_le w.pos depth
  rw [hbytes] at hsites
  cases hexcess : Site.excess? limits clauses (e.sites w.pos depth) with
  | some error =>
      rw [hexcess] at hread
      cases hread
  | none =>
      rw [hexcess] at hread
      cases hread
      omega

namespace Machine

/-- The machines stand side by side: in front of the same bytes but for blanks, with the
same behind them but for offsets, and with `more` clauses begun in the second. -/
structure Respaced (move : Nat → Nat) (bound more : Nat) (m m' : Machine) : Prop where
  window : m.window.Respaced move m'.window
  state : m.state.Moved move m'.state
  assembly : m'.assembly = m.assembly.relocate move
  clauses : m'.clauses = m.clauses + more
  /-- There are not too many clauses begun and bytes left for the limits to match. -/
  bounded : m.clauses + m.window.rest.length ≤ bound
  /-- No blank is left in front of an operator. -/
  operator : ∀ s, m.state = .subject s → m.window.peek? ≠ some Byte.space

variable {limits limits' : Limits} {bound more deeper depth : Nat} {m m' : Machine}
  {w w' : Window} {b : UInt8}

/-- Behind the blanks of windows that are alike the machines stand side by side. -/
theorem respaced_skipSpaces {state state' : State} {a a' : Assembly} {clauses clauses' : Nat}
    (hwindow : w.Respaced move w') (hstate : state.Moved move state')
    (hassembly : a' = a.relocate move) (hclauses : clauses' = clauses + more)
    (hbounded : clauses + w.rest.length ≤ bound) :
    Respaced move bound more ⟨w.skipSpaces, state, a, clauses⟩
      ⟨w'.skipSpaces, state', a', clauses'⟩ where
  window := hwindow.skipSpaces
  state := hstate
  assembly := hassembly
  clauses := hclauses
  bounded := Nat.le_trans (Nat.add_le_add_left w.length_skipSpaces_le clauses) hbounded
  operator _ _ := w.peek?_skipSpaces_ne

/-- Machines that start in front of respaced windows run side by side. -/
theorem respaced_start {clauses : Nat} (hwindow : w.Respaced move w')
    (hbounded : clauses + w.rest.length ≤ bound) :
    Respaced move bound more (start w clauses) (start w' (clauses + more)) :=
  respaced_skipSpaces hwindow .start rfl rfl hbounded

/-! ## The steps, state by state -/

/-- Side by side a clause begins in both machines or in neither. -/
theorem Respaced.begin (hlimits : limits.Matches limits' bound more deeper)
    (h : Respaced move bound more m m') (hb : m.window.peek? = some b) :
    Moves move (Respaced move bound more) (m.begin limits b) (m'.begin limits' b) := by
  have hpos := Window.length_pos_of_peek? hb
  have hbounded := h.bounded
  have hcount := hlimits.clauses (m.clauses + 1) (by omega)
  have hbegun : ∀ state state', state.Moved move state' → (∀ s, state ≠ .subject s) →
      b ≠ Byte.space → b ≠ Byte.quote → Moves move (Respaced move bound more)
        (if limits.clauses.toNat < m.clauses + 1 then
          m.window.failure .limitExceeded .clause "fewer clauses (see max_clauses)"
        else .ok { m with
          window := m.window.skip 1, state := state, clauses := m.clauses + 1 })
        (if limits'.clauses.toNat < m'.clauses + 1 then
          m'.window.failure .limitExceeded .clause "fewer clauses (see max_clauses)"
        else .ok { m' with
          window := m'.window.skip 1, state := state', clauses := m'.clauses + 1 }) := by
    intro state state' hstate hsubject hspace hquote
    rw [h.clauses, Nat.add_right_comm]
    simp only [← hcount]
    split
    · exact h.window.failure
    · refine .ok ⟨h.window.skip_one hb hspace hquote, hstate, h.assembly, rfl, ?_, ?_⟩
      · simp only [Window.length_skip]
        omega
      · intro s hs
        exact absurd hs (hsubject s)
  unfold Machine.begin
  dsimp only
  split
  · next hopen =>
    subst hopen
    rw [h.window.pos]
    exact hbegun _ _ (.group _) (fun s => State.noConfusion) (by decide) (by decide)
  split
  · next hletter =>
    rw [h.window.pos]
    refine hbegun _ _ (.key (List.cons_ne_nil b []) ?_) (fun s => State.noConfusion)
      (Byte.ne_of_class hletter (by decide)) (Byte.ne_of_class hletter (by decide))
    intro c hc
    rw [List.mem_singleton.mp hc]
    exact hletter
  split
  · exact h.window.failure
  · exact h.window.failure

/-- Side by side a key goes on, or ends, in both machines. -/
theorem Respaced.continueKey {start : Nat} {letters : List UInt8}
    (h : Respaced move bound more m m') (hb : m.window.peek? = some b) (hne : letters ≠ [])
    (hletters : ∀ c ∈ letters, Byte.isLetter c = true) :
    Moves move (Respaced move bound more) (m.continueKey start letters b)
      (m'.continueKey (move start) letters b) := by
  have hbounded := h.bounded
  have hskip : (m.window.skip 1).rest.length ≤ m.window.rest.length := by
    rw [Window.length_skip]
    exact Nat.sub_le _ 1
  obtain ⟨name, -, hbytes⟩ := exists_name_of_letters (List.reverse_ne_nil_iff.mpr hne)
    fun c hc => hletters c (List.mem_reverse.mp hc)
  unfold Machine.continueKey
  rw [← hbytes, readName_encode, readName_encode, h.window.pos]
  dsimp only
  split
  · next hletter =>
    have hone := h.window.skip_one hb (Byte.ne_of_class hletter (by decide))
      (Byte.ne_of_class hletter (by decide))
    refine .ok ⟨hone, .key (List.cons_ne_nil b letters) ?_, h.assembly, h.clauses,
      by dsimp only; omega, fun s hs => State.noConfusion hs⟩
    intro c hc
    rcases List.mem_cons.mp hc with rfl | hc
    · exact hletter
    · exact hletters c hc
  split
  · next hspace =>
    subst hspace
    refine .ok ⟨h.window.skip_space hb, .subject _, h.assembly, h.clauses, ?_,
      fun _ _ => Window.peek?_skipSpaces_ne _⟩
    have hle := (m.window.skip 1).length_skipSpaces_le
    dsimp only
    omega
  split
  · next hdot =>
    subst hdot
    exact .ok (respaced_skipSpaces (h.window.skip_one hb (by decide) (by decide)) (.call _)
      h.assembly h.clauses (by omega))
  · next hspace _ =>
    exact .ok ⟨h.window, .subject _, h.assembly, h.clauses, hbounded,
      fun _ _ heq => hspace (Option.some.inj (hb.symm.trans heq))⟩

/-- Side by side both machines read the same operator or fail alike. -/
theorem Respaced.readOperator (h : Respaced move bound more m m') (s : Subject)
    (hspace : m.window.peek? ≠ some Byte.space) :
    Moves move (Respaced move bound more) (m.readOperator s)
      (m'.readOperator (s.relocate move)) := by
  have hbounded := h.bounded
  unfold Machine.readOperator
  rcases (Operator.read_respaced h.window hspace).cases with
    ⟨e, hr, hr'⟩ | ⟨operator, after, after', hr, hr', hafter⟩
  · rw [hr, hr']
    exact .error e
  · have hlt := Operator.length_operator_lt hr
    rw [hr, hr']
    exact .ok (respaced_skipSpaces hafter (.operand s operator) h.assembly h.clauses (by omega))

theorem Respaced.readCall (h : Respaced move bound more m m') (k : Key) :
    Moves move (Respaced move bound more) (m.readCall k) (m'.readCall (k.relocate move)) := by
  have hbounded := h.bounded
  unfold Machine.readCall
  rcases (FunctionCall.read_respaced k h.window).cases with
    ⟨e, hr, hr'⟩ | ⟨call, after, after', hr, hr', hafter⟩
  · rw [hr, hr']
    exact .error e
  · have hlt := FunctionCall.length_call_lt hr
    rw [hr, hr']
    exact .ok (respaced_skipSpaces hafter (.subject (.call call)) h.assembly h.clauses
      (by omega))

theorem Respaced.readOperand (h : Respaced move bound more m m') (s : Subject)
    (operator : Operator) :
    Moves move (Respaced move bound more) (m.readOperand s operator)
      (m'.readOperand (s.relocate move) operator) := by
  have hbounded := h.bounded
  unfold Machine.readOperand
  rcases (Literal.read_respaced .operand h.window).cases with
    ⟨e, hr, hr'⟩ | ⟨value, after, after', hr, hr', hafter⟩
  · rw [hr, hr']
    exact .error e
  · have hlt := Literal.length_read_lt hr
    rw [hr, hr']
    refine .ok (respaced_skipSpaces hafter .connector ?_ h.clauses (by omega))
    rw [h.assembly, ← Assembly.pushClause_relocate]
    rfl

theorem Respaced.readConnector (h : Respaced move bound more m m') :
    Moves move (Respaced move bound more) m.readConnector m'.readConnector := by
  have hbounded := h.bounded
  unfold Machine.readConnector
  rcases (Connector.read_respaced h.window).cases with
    ⟨e, hr, hr'⟩ | ⟨connector, after, after', hr, hr', hafter⟩
  · rw [hr, hr']
    exact .error e
  · have hlt := Connector.length_connector_lt hr
    rw [hr, hr']
    refine .ok (respaced_skipSpaces hafter .start ?_ h.clauses (by omega))
    rw [h.assembly, Assembly.pushConnector_relocate]
    rfl

/-- The two runs come to the same tree but for offsets, and count the same clauses. -/
def RunsAlike (move : Nat → Nat) (more : Nat) :
    Except SyntaxError (Query × Nat) → Except SyntaxError (Query × Nat) → Prop :=
  Moves move fun r r' => r' = (r.1.relocate move, r.2 + more)

/-- Runs that are alike give the same tree but for its spans, or fail alike. -/
theorem RunsAlike.map_fst {r r' : Except SyntaxError (Query × Nat)}
    (h : RunsAlike move more r r') :
    r'.map Prod.fst =
      ((r.map Prod.fst).map (Query.relocate move)).mapError (SyntaxError.relocate move) := by
  cases h with
  | error e => rfl
  | ok h => rw [h]; rfl

/-- A group is read alike if its contents are. -/
theorem Respaced.readGroup (hlimits : limits.Matches limits' bound more deeper)
    (h : Respaced move bound more m m') {opening : Nat} (hstate : m.state = .group opening)
    (hstate' : m'.state = .group (move opening)) (hb : m.window.peek? = some b)
    (hdepth : depth + m.window.rest.length ≤ bound)
    (hnested : ∀ v v' : Window, v.Respaced move v' →
      v.rest.length < m.window.rest.length →
      RunsAlike move more (readWindow limits (depth + 1) v m.clauses)
        (readWindow limits' (depth + deeper + 1) v' m'.clauses)) :
    Moves move (Respaced move bound more) (m.step limits depth b)
      (m'.step limits' (depth + deeper) b) := by
  have hpos := Window.length_pos_of_peek? hb
  have hbounded := h.bounded
  have hdeep := hlimits.depth (depth + 1) (by omega)
  rw [step_group limits depth b hstate, step_group limits' (depth + deeper) b hstate',
    Nat.add_right_comm depth deeper 1]
  rw [Nat.add_right_comm depth deeper 1] at hnested
  simp only [← hdeep]
  split
  · exact .error _
  rcases h.window.closing? with ⟨hnone, hnone'⟩ | ⟨i, j, hsome, hsome', hinside, hbehind⟩
  · rw [hnone, hnone']
    exact .error _
  · rw [hsome, hsome']
    dsimp only
    have hlt := Grouping.closing?_lt hsome
    have hshorter : (m.window.rest.take i).length < m.window.rest.length := by
      rw [List.length_take]
      omega
    rcases (hnested _ _ hinside hshorter).cases with
      ⟨e, hr, hr'⟩ | ⟨⟨inner, count⟩, y, hr, hr', rfl⟩
    · rw [hr, hr']
      exact .error e
    · have hcount := count_le_of_readWindow hr
      simp only [List.length_take] at hcount
      rw [hr, hr']
      refine .ok (respaced_skipSpaces hbehind .connector ?_ rfl ?_)
      · rw [h.assembly, ← Assembly.pushClause_relocate]
        rfl
      · rw [Window.length_skip]
        omega

/-- **One step of both machines.**  It fails in both at the same place, or leaves them side
by side. -/
theorem Respaced.step (hlimits : limits.Matches limits' bound more deeper)
    (h : Respaced move bound more m m') (hb : m.window.peek? = some b)
    (hdepth : depth + m.window.rest.length ≤ bound)
    (hnested : ∀ v v' : Window, v.Respaced move v' →
      v.rest.length < m.window.rest.length →
      RunsAlike move more (readWindow limits (depth + 1) v m.clauses)
        (readWindow limits' (depth + deeper + 1) v' m'.clauses)) :
    Moves move (Respaced move bound more) (m.step limits depth b)
      (m'.step limits' (depth + deeper) b) := by
  generalize hs : m.state = state
  generalize hs' : m'.state = state'
  have hstate := h.state
  rw [hs, hs'] at hstate
  cases hstate with
  | start =>
      rw [step_start hs, step_start hs']
      exact h.begin hlimits hb
  | key hne hletters =>
      rw [step_key hs, step_key hs']
      exact h.continueKey hb hne hletters
  | subject s =>
      rw [step_subject hs, step_subject hs']
      exact h.readOperator s (h.operator s hs)
  | call k =>
      rw [step_call hs, step_call hs']
      exact h.readCall k
  | group opening => exact h.readGroup hlimits hs hs' hb hdepth hnested
  | operand s operator =>
      rw [step_operand hs, step_operand hs']
      exact h.readOperand s operator
  | connector =>
      rw [step_connector hs, step_connector hs']
      exact h.readConnector

/-! ## Runs -/

/-- Side by side both machines finish alike. -/
theorem Respaced.finish (h : Respaced move bound more m m') :
    RunsAlike move more m.finish m'.finish := by
  generalize hs : m.state = state
  generalize hs' : m'.state = state'
  have hstate := h.state
  rw [hs, hs'] at hstate
  unfold Machine.finish
  rw [hs, hs']
  cases hstate with
  | connector =>
      dsimp only
      rw [h.assembly, Assembly.result?_relocate, h.clauses]
      cases m.assembly.result? with
      | none => exact h.window.truncated
      | some q => exact .ok rfl
  | group opening => exact .error _
  | start => exact h.window.truncated
  | key _ _ => exact h.window.truncated
  | subject s => exact h.window.truncated
  | call k => exact h.window.truncated
  | operand s operator => exact h.window.truncated

/-- Inside a group the induction over the run gives two nested runs that are alike. -/
theorem nested_respaced
    (hnested : NestedIn (fun depth m r => ∀ m', Respaced move bound more m m' →
      depth + m.window.rest.length ≤ bound →
        RunsAlike move more r (run limits' (depth + deeper) m')) limits depth m)
    (h : Respaced move bound more m m') (hdepth : depth + m.window.rest.length ≤ bound)
    (v v' : Window) (hv : v.Respaced move v') (hlt : v.rest.length < m.window.rest.length) :
    RunsAlike move more (readWindow limits (depth + 1) v m.clauses)
      (readWindow limits' (depth + deeper + 1) v' m'.clauses) := by
  have hbounded := h.bounded
  have hspaces := v.length_skipSpaces_le
  rw [h.clauses, Nat.add_right_comm depth deeper 1]
  refine hnested v m.clauses hlt (start v' (m.clauses + more)) (respaced_start hv (by omega)) ?_
  simp only [start]
  omega

/-- **Two machines that stand side by side run alike.** -/
theorem run_respaced (hlimits : limits.Matches limits' bound more deeper) (depth : Nat)
    (m : Machine) :
    ∀ m', Respaced move bound more m m' → depth + m.window.rest.length ≤ bound →
      RunsAlike move more (run limits depth m) (run limits' (depth + deeper) m') := by
  refine run_induction (motive := fun depth m r => ∀ m', Respaced move bound more m m' →
    depth + m.window.rest.length ≤ bound →
      RunsAlike move more r (run limits' (depth + deeper) m')) ?_ ?_ ?_ depth m
  · intro depth m hend m' h _
    rw [run_of_atEnd (h.window.peek?.trans hend)]
    exact h.finish
  · intro depth m b e hb hnested hstep m' h hdepth
    rcases (h.step hlimits hb hdepth (nested_respaced hnested h hdepth)).cases with
      ⟨error, hr, hr'⟩ | ⟨next, next', hr, -, -⟩
    · obtain rfl := Except.error.inj (hr.symm.trans hstep)
      rw [run_of_error (h.window.peek?.trans hb) hr']
      exact .error error
    · cases hr.symm.trans hstep
  · intro depth m b next hb hnested hstep ih m' h hdepth
    rcases (h.step hlimits hb hdepth (nested_respaced hnested h hdepth)).cases with
      ⟨error, hr, -⟩ | ⟨same, next', hr, hr', hnext⟩
    · cases hr.symm.trans hstep
    · obtain rfl := Except.ok.inj (hr.symm.trans hstep)
      rw [run_of_ok (h.window.peek?.trans hb) hr']
      refine ih next' hnext ?_
      have hlt := measure_step_lt limits hb hstep
      simp only [measure] at hlt
      have hkey : (if m.state.isKey = true then 1 else 0) ≤ 1 := by split <;> simp
      omega

/-- **Two windows that differ in their blanks only are read alike.** -/
theorem readWindow_respaced (hlimits : limits.Matches limits' bound more deeper)
    (hw : w.Respaced move w') {clauses : Nat} (hclauses : clauses + w.rest.length ≤ bound)
    (hdepth : depth + w.rest.length ≤ bound) :
    RunsAlike move more (readWindow limits depth w clauses)
      (readWindow limits' (depth + deeper) w' (clauses + more)) := by
  have hspaces := w.length_skipSpaces_le
  refine run_respaced hlimits depth (start w clauses) _ (respaced_start hw hclauses) ?_
  simp only [start]
  omega

end Machine

end RecordFilter
