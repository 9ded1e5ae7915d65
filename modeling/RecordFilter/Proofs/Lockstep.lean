import RecordFilter.Proofs.Joining
import RecordFilter.Proofs.Machine.Failure
import RecordFilter.Proofs.Reading.Hint

/-!
# The machine and its assembly

The state of a machine and its assembly say the same about the clause that is under way.
Between two clauses the assembly holds a query and nothing waits; everywhere else it is
empty, or a connector waits for the clause.  So a clause is pushed only where the assembly
can take it, and the assembly of a whole window always gives its query.

The assembly is spoilt by no machine, and no machine spells a name that is none.  Both would
be reported with the hint of a missing clause, which is therefore only ever given where a
clause has to start.

* `Reached.inLockstep` — what the assembly of a machine under way holds;
* `Reached.keepsClauses` — every clause that is pushed is kept behind the others;
* `part_of_hint` — where a clause is asked for;
* `lockstep_of_underWay` — all this together.
-/

namespace RecordFilter

/-! ## The clauses of an assembly -/

/-- The clauses of a query side by side, from left to right. -/
def Query.clauses (q : Query) : List Query := q.chain.1 :: q.chain.2.map Prod.snd

/-- A single clause is its own chain. -/
theorem Query.clauses_of_not_isLogical {q : Query} (h : ¬q.IsLogical) : q.clauses = [q] := by
  cases q with
  | comparison c => rfl
  | group inner => rfl
  | logical lhs c rhs => exact absurd trivial h

/-- A link adds its right side to the clauses. -/
theorem Query.clauses_logical (lhs rhs : Query) (c : Connector) :
    (logical lhs c rhs).clauses = lhs.clauses ++ [rhs] := by
  rw [clauses, chain_logical, clauses, List.map_append, List.cons_append]
  rfl

namespace Assembly

/-- The clauses that an assembly holds. -/
def clauses (a : Assembly) : List Query := a.root.elim [] Query.clauses

variable {a : Assembly} {clause : Query}

/-- A clause that is awaited comes behind those that are there. -/
theorem Awaits.clauses_pushClause (h : a.Awaits) (hclause : ¬clause.IsLogical) :
    (a.pushClause clause).clauses = a.clauses ++ [clause] := by
  cases h with
  | empty => exact Query.clauses_of_not_isLogical hclause
  | connector q d => exact Query.clauses_logical q clause d

theorem clauses_pushConnector (a : Assembly) (c : Connector) :
    (a.pushConnector c).clauses = a.clauses := rfl

/-- An assembly that holds a query gives it. -/
theorem Holds.exists_result? (h : a.Holds) :
    ∃ q, a.result? = some q ∧ q.clauses = a.clauses := by
  cases h with
  | query q => exact ⟨q, rfl, rfl⟩

end Assembly

namespace Machine

variable {limits : Limits} {input : List UInt8} {depth : Nat} {w : Window} {m next : Machine}
  {text : List UInt8} {b : UInt8} {e : SyntaxError}

/-! ## The invariant -/

/-- The state and the assembly say the same: between clauses the assembly holds a query and
no connector waits, and otherwise a connector waits exactly if there is something in front
of it. -/
structure InLockstep (m : Machine) : Prop where
  sound : m.assembly.malformed = false
  whole : m.assembly.root.isSome = true ∧ m.assembly.pending = none ↔ m.state = .connector
  awaiting : m.state ≠ .connector →
    (m.assembly.root.isSome = true ↔ m.assembly.pending.isSome = true)

/-- **The state and the assembly of a machine say the same**, however far it has come. -/
theorem Reached.inLockstep (h : Reached w text m) : m.InLockstep := by
  obtain ⟨hholds, hawaits⟩ := h.progress.assembly
  by_cases hstate : m.state = .connector
  · have hassembly := hholds hstate
    generalize ha : m.assembly = a at hassembly
    cases hassembly with
    | query q =>
        refine ⟨by rw [ha], ?_, fun hne => absurd hstate hne⟩
        rw [ha]
        exact ⟨fun _ => hstate, fun _ => ⟨rfl, rfl⟩⟩
  · have hassembly := hawaits hstate
    generalize ha : m.assembly = a at hassembly
    cases hassembly with
    | empty =>
        refine ⟨by rw [ha]; rfl, ?_, fun _ => by rw [ha]; exact Iff.rfl⟩
        rw [ha]
        exact ⟨fun hwhole => Bool.noConfusion hwhole.1, fun h => absurd h hstate⟩
    | connector q d =>
        refine ⟨by rw [ha], ?_, fun _ => by rw [ha]; exact Iff.rfl⟩
        rw [ha]
        exact ⟨fun hwhole => absurd hwhole.2 (Option.some_ne_none d), fun h => absurd h hstate⟩

/-! ## Clauses are kept -/

/-- What a step does to the assembly.  The step that ends a clause pushes it, the step from
there pushes the connector, and the others leave the assembly as it is. -/
inductive Pushes (m next : Machine) : Prop
  | clause {q : Query} (hstate : m.state ≠ .connector) (hnext : next.state = .connector)
      (hsingle : ¬q.IsLogical) (h : next.assembly = m.assembly.pushClause q)
  | connector {c : Connector} (hstate : m.state = .connector) (hnext : next.state ≠ .connector)
      (h : next.assembly = m.assembly.pushConnector c)
  | nothing (hstate : m.state ≠ .connector) (hnext : next.state ≠ .connector)
      (h : next.assembly = m.assembly)

/-- Beginning a clause pushes nothing. -/
theorem pushes_begin (hstate : m.state ≠ .connector) (h : m.begin limits b = .ok next) :
    m.Pushes next := by
  unfold begin Window.failure at h
  dsimp only at h
  split at h
  · split at h
    · cases h
    · cases h
      exact .nothing hstate State.noConfusion rfl
  split at h
  · split at h
    · cases h
    · cases h
      exact .nothing hstate State.noConfusion rfl
  split at h <;> cases h

/-- Going on with a key pushes nothing. -/
theorem pushes_continueKey {start : Nat} {letters : List UInt8} (hstate : m.state ≠ .connector)
    (h : m.continueKey start letters b = .ok next) : m.Pushes next := by
  unfold continueKey at h
  split at h
  · cases h
    exact .nothing hstate State.noConfusion rfl
  split at h
  · cases h
  split at h
  · cases h
    exact .nothing hstate State.noConfusion rfl
  split at h
  · cases h
    exact .nothing hstate State.noConfusion rfl
  · cases h
    exact .nothing hstate State.noConfusion rfl

/-- Reading a group pushes it as one clause. -/
theorem pushes_readGroup {opening : Nat} (hgroup : m.state = .group opening)
    (hstate : m.state ≠ .connector) (h : m.step limits depth b = .ok next) :
    m.Pushes next := by
  rw [step_group limits depth b hgroup] at h
  split at h
  · cases h
  split at h
  · cases h
  split at h
  · cases h
  · next inner clauses _ =>
    cases h
    exact .clause (q := .group inner) hstate rfl id rfl

/-- Reading a value pushes the comparison that it completes. -/
theorem pushes_readOperand {s : Subject} {o : Operator} (hstate : m.state ≠ .connector)
    (h : m.readOperand s o = .ok next) : m.Pushes next := by
  unfold readOperand at h
  split at h
  · cases h
  · next value after _ =>
    cases h
    exact .clause (q := .comparison ⟨s, o, value⟩) hstate rfl id rfl

/-- **What a step does to the assembly.** -/
theorem pushes_step (h : m.step limits depth b = .ok next) : m.Pushes next := by
  by_cases hconnector : m.state = .connector
  · rw [step_connector hconnector, readConnector] at h
    split at h
    · cases h
    · cases h
      exact .connector hconnector State.noConfusion rfl
  cases hstate : m.state with
  | start => exact pushes_begin hconnector (step_start hstate ▸ h)
  | key start letters => exact pushes_continueKey hconnector (step_key hstate ▸ h)
  | subject s =>
      rw [step_subject hstate, readOperator] at h
      split at h
      · cases h
      · cases h
        exact .nothing hconnector State.noConfusion rfl
  | call k =>
      rw [step_call hstate, readCall] at h
      split at h
      · cases h
      · cases h
        exact .nothing hconnector State.noConfusion rfl
  | group opening => exact pushes_readGroup hstate hconnector h
  | operand s o => exact pushes_readOperand hconnector (step_operand hstate ▸ h)
  | connector => exact absurd hstate hconnector

/-- The clauses of an assembly are kept, and the one that a step ends comes behind them. -/
structure KeepsClauses (m next : Machine) : Prop where
  ended : next.state = .connector → ∃ clause,
    next.assembly = m.assembly.pushClause clause ∧
      next.assembly.clauses = m.assembly.clauses ++ [clause]
  underWay : next.state ≠ .connector → next.assembly.clauses = m.assembly.clauses

/-- **No step drops a clause.** -/
theorem Reached.keepsClauses (h : Reached w text m) (hstep : m.step limits depth b = .ok next) :
    m.KeepsClauses next := by
  cases pushes_step hstep with
  | clause hstate hnext hsingle hassembly =>
      have hclauses := (h.progress.assembly.2 hstate).clauses_pushClause hsingle
      exact ⟨fun _ => ⟨_, hassembly, hassembly ▸ hclauses⟩, fun hne => absurd hnext hne⟩
  | connector hstate hnext hassembly =>
      refine ⟨fun heq => absurd heq hnext, fun _ => ?_⟩
      rw [hassembly, Assembly.clauses_pushConnector]
  | nothing hstate hnext hassembly =>
      exact ⟨fun heq => absurd heq hnext, fun _ => by rw [hassembly]⟩

/-- Clauses that are kept stay in front. -/
theorem KeepsClauses.isPrefix (h : m.KeepsClauses next) :
    m.assembly.clauses <+: next.assembly.clauses := by
  by_cases hnext : next.state = .connector
  · obtain ⟨clause, -, hclauses⟩ := h.ended hnext
    exact hclauses ▸ List.prefix_append _ _
  · exact h.underWay hnext ▸ List.prefix_rfl

/-- At the end of its window a machine gives the query of its assembly, with all clauses. -/
theorem Reached.clauses_finish {q : Query} {count : Nat} (h : Reached w text m)
    (hfinish : m.finish = .ok (q, count)) : q.clauses = m.assembly.clauses := by
  unfold Machine.finish at hfinish
  split at hfinish
  · next hstate =>
    obtain ⟨found, hfound, hclauses⟩ := (h.progress.assembly.1 hstate).exists_result?
    rw [hfound] at hfinish
    cases hfinish
    exact hclauses
  · cases hfinish
  · cases hfinish

/-- **No run drops a clause**: what it has in its assembly comes first in the query that it
reads. -/
theorem clauses_prefix_of_run (depth : Nat) (m : Machine) :
    ∀ w text, Reached w text m → ∀ q count, run limits depth m = .ok (q, count) →
      m.assembly.clauses <+: q.clauses := by
  refine run_induction (motive := fun _ m r => ∀ w text, Reached w text m → ∀ q count,
    r = .ok (q, count) → m.assembly.clauses <+: q.clauses) ?_ ?_ ?_ depth m
  · intro depth m _ w text h q count hfinish
    exact h.clauses_finish hfinish ▸ List.prefix_rfl
  · intro depth m b e _ _ _ w text _ q count herror
    cases herror
  · intro depth m b next hb _ hstep ih w text h q count hok
    obtain ⟨more, hmore⟩ := h.step hb hstep
    exact (h.keepsClauses hstep).isPrefix.trans (ih w _ hmore q count hok)

/-! ## Names are spelled -/

/-- The letters of a key and of a function spell a name wherever one is needed. -/
structure SpellsNames (m : Machine) : Prop where
  key : ∀ start letters, m.state = .key start letters →
    ∃ name, readName start letters.reverse .key = .ok name
  function : ∀ k, m.state = .call k → m.window.run Byte.isLetter ≠ [] →
    ∃ name, readName m.window.pos (m.window.run Byte.isLetter) .call = .ok name

theorem exists_readName {letters : List UInt8} (hne : letters ≠ [])
    (hletters : ∀ c ∈ letters, Byte.isLetter c = true) (start : Nat) (part : Part) :
    ∃ name, readName start letters part = .ok name := by
  obtain ⟨name, -, hbytes⟩ := exists_name_of_letters hne hletters
  exact ⟨name, hbytes ▸ readName_encode start name part⟩

/-- Along a reading the letters of a key are a name in every state. -/
theorem Reached.spellsNames (h : Reached w text m) : m.SpellsNames := by
  refine ⟨?_, ?_⟩
  · intro start letters hstate
    have hprogress := h.progress
    rw [hstate] at hprogress
    cases hprogress with
    | key _ hne hletters =>
      exact exists_readName (List.reverse_ne_nil_iff.mpr hne)
        (fun c hc => hletters c (List.mem_reverse.mp hc)) _ _
  · intro k _ hne
    exact exists_readName hne (fun c hc => Window.all_of_mem_run hc) _ _

/-! ## Where a clause is asked for -/

/-- Only where a clause has to start is one expected. -/
theorem eq_start_of_hint {state : State} (h : state.hint = Hint.clause) : state = .start := by
  cases state with
  | start => rfl
  | key start letters =>
      exact absurd h (by decide : "an operator after the key" ≠ Hint.clause)
  | subject s => exact absurd h (by decide : Operator.validSymbols ≠ Hint.clause)
  | call k =>
      exact absurd h (by decide : "a function call like `.name(args)`" ≠ Hint.clause)
  | group opening => exact absurd h (by decide : State.groupHint ≠ Hint.clause)
  | operand s o => exact absurd h (by decide : Hint.value ≠ Hint.clause)
  | connector => exact absurd h (by decide : Connector.validSymbols ≠ Hint.clause)

/-- Where the input ends and a clause is expected, the clause is what is missing. -/
theorem Reached.part_of_finish (h : Reached w text m) (hfinish : m.finish = .error e)
    (hhint : e.hint = Hint.clause) : e.part = .clause := by
  unfold Machine.finish at hfinish
  split at hfinish
  · next hstate =>
    obtain ⟨q, hq, -⟩ := (h.progress.assembly.1 hstate).exists_result?
    rw [hq] at hfinish
    cases hfinish
  · cases hfinish
    exact absurd hhint (by decide : State.groupHint ≠ Hint.clause)
  · cases hfinish
    show m.state.part = .clause
    rw [eq_start_of_hint hhint]
    rfl

/-- Where no clause can begin, the clause is what is missing. -/
theorem part_of_begin (h : m.begin limits b = .error e) : e.part = .clause := by
  unfold begin Window.failure at h
  dsimp only at h
  split at h
  · split at h <;> cases h
    rfl
  split at h
  · split at h <;> cases h
    rfl
  split at h <;> cases h <;> rfl

/-- A group that is not entered is refused in words of its own. -/
theorem hint_of_step_group {opening : Nat} (hstate : m.state = .group opening)
    (hself : ∀ v, ¬m.Enters limits depth v) (h : m.step limits depth b = .error e) :
    e.hint ≠ Hint.clause := by
  rw [step_group limits depth b hstate] at h
  split at h
  · cases h
    exact (by decide : "shallower nesting (see max_depth)" ≠ Hint.clause)
  · next hdepth =>
    split at h
    · cases h
      exact (by decide : State.groupHint ≠ Hint.clause)
    · next inside hclosing =>
      exact absurd ⟨opening, inside, hstate, Nat.le_of_not_lt hdepth, hclosing, rfl⟩
        (hself _)

/-- **A clause is only asked for where one has to start.** -/
theorem Reached.part_of_hint (h : Reached w text m) (hraises : m.Raises limits depth e)
    (hhint : e.hint = Hint.clause) : e.part = .clause := by
  cases hraises with
  | atEnd _ hfinish => exact h.part_of_finish hfinish hhint
  | @step b hb hself hstep =>
      cases hstate : m.state with
      | start => exact part_of_begin (step_start hstate ▸ hstep)
      | key start letters =>
          exact absurd (step_key hstate ▸ hstep) (h.continueKey_ne_error hstate)
      | subject s =>
          have hread := readOperator_eq_error_iff.mp (step_subject hstate ▸ hstep)
          rw [Operator.hint_of_read hread] at hhint
          exact absurd hhint (by decide)
      | call k =>
          have hread := readCall_eq_error_iff.mp (step_call hstate ▸ hstep)
          exact absurd (hhint ▸ FunctionCall.hint_of_read hread) Hint.clause_not_mem_hints
      | group opening => exact absurd hhint (hint_of_step_group hstate hself hstep)
      | operand s o =>
          have hread := readOperand_eq_error_iff.mp (step_operand hstate ▸ hstep)
          exact absurd (hhint ▸ FunctionCall.hint_of_literal hread) Hint.clause_not_mem_hints
      | connector =>
          have hread := readConnector_eq_error_iff.mp (step_connector hstate ▸ hstep)
          rw [Connector.hint_of_read hread] at hhint
          exact absurd hhint (by decide)

end Machine

/-- A reading asks for a clause only where one has to start. -/
theorem part_of_hint {limits : Limits} {input : List UInt8} {e : SyntaxError}
    (h : parseWith limits input = .error e) (hhint : e.hint = Hint.clause) :
    e.part = .clause := by
  rcases parseWith_eq_error_iff.mp h with ⟨-, rfl⟩ | ⟨depth, w, m, hm, hraises⟩
  · rfl
  · obtain ⟨text, hreached⟩ := hm.reached
    exact hreached.part_of_hint hraises hhint

/-- **The machine and its assembly stay in lockstep**, in every window, in front of every step
and at the end.  A machine that is between clauses at the end of its window has a query; every
clause that a step ends is kept behind those before it, up to the query that the run reads;
and the letters of keys and functions always spell names.  So no reading ends for want of a
query behind a whole clause, and none for a name that cannot be spelled. -/
theorem lockstep_of_underWay (limits : Limits) (input : List UInt8) :
    (∀ (depth : Nat) (w : Window) (m : Machine), Machine.UnderWay limits input depth w m →
      m.InLockstep ∧ m.SpellsNames ∧
      (m.window.peek? = none → m.state = .connector →
        ∃ q, m.assembly.result? = some q ∧ q.clauses = m.assembly.clauses) ∧
      (∀ b next, m.window.peek? = some b → m.step limits depth b = .ok next →
        m.KeepsClauses next) ∧
      ∀ q count, Machine.run limits depth m = .ok (q, count) →
        m.assembly.clauses <+: q.clauses) ∧
    ∀ e, parseWith limits input = .error e →
      ¬(e.violation = .truncatedInput ∧ e.part = .connector ∧ e.hint = Hint.clause) ∧
      ¬(e.violation = .unexpectedByte ∧ (e.part = .key ∨ e.part = .call) ∧
        e.hint = Hint.clause) := by
  refine ⟨?_, ?_⟩
  · intro depth w m hm
    obtain ⟨text, hreached⟩ := hm.reached
    refine ⟨hreached.inLockstep, hreached.spellsNames, ?_, ?_, ?_⟩
    · intro _ hstate
      exact (hreached.progress.assembly.1 hstate).exists_result?
    · intro b next _ hstep
      exact hreached.keepsClauses hstep
    · intro q count hrun
      exact Machine.clauses_prefix_of_run depth m _ _ hreached q count hrun
  · intro e h
    refine ⟨?_, ?_⟩
    · rintro ⟨-, hpart, hhint⟩
      rw [part_of_hint h hhint] at hpart
      cases hpart
    · rintro ⟨-, hpart, hhint⟩
      rw [part_of_hint h hhint] at hpart
      rcases hpart with hpart | hpart
      · cases hpart
      · cases hpart

/-- In `(a==1)` the machine has an empty assembly in front of the group, and behind it a query
with the group as its only clause.  In `a==1 &&` a clause is asked for where one has to
start. -/
theorem lockstep_of_underWay_smallGroup :
    let input := Utf8.encode "(a==1)"
    let group : Machine := ⟨⟨1, input.drop 1⟩, .group 0, .empty, 1⟩
    let inner : Query := .comparison ⟨.key ⟨"a", ⟨1, 2⟩⟩, .equals, .integer 1⟩
    let behind : Machine := ⟨⟨6, []⟩, .connector, ⟨some (.group inner), none, false⟩, 2⟩
    Machine.UnderWay .standard input 0 ⟨0, input⟩ group ∧ group.InLockstep ∧
      group.KeepsClauses behind ∧ behind.InLockstep ∧
      (∃ q, behind.assembly.result? = some q ∧ q.clauses = behind.assembly.clauses) ∧
      ∃ e, parseWith .standard (Utf8.encode "a==1 &&") = .error e ∧ e.hint = Hint.clause ∧
        ¬(e.violation = .truncatedInput ∧ e.part = .connector ∧ e.hint = Hint.clause) := by
  intro input group inner behind
  have hgroup : Machine.UnderWay .standard input 0 ⟨0, input⟩ group :=
    .step (.start (by decide)) rfl (by with_unfolding_all rfl)
  have hstep : group.step .standard 0 0x61 = .ok behind := by
    with_unfolding_all rfl
  have hbehind : Machine.UnderWay .standard input 0 ⟨0, input⟩ behind :=
    .step hgroup rfl hstep
  have herror : parseWith .standard (Utf8.encode "a==1 &&") =
      .error ⟨.truncatedInput, 7, .clause, Hint.clause⟩ := by
    with_unfolding_all rfl
  obtain ⟨hlockstep, -⟩ := lockstep_of_underWay .standard input
  obtain ⟨hin, -, -, hkeeps, -⟩ := hlockstep 0 _ group hgroup
  obtain ⟨hinBehind, -, hresult, -, -⟩ := hlockstep 0 _ behind hbehind
  refine ⟨hgroup, hin, hkeeps _ _ rfl hstep, hinBehind, hresult rfl rfl, _, herror, rfl, ?_⟩
  exact ((lockstep_of_underWay .standard _).2 _ herror).1

end RecordFilter
