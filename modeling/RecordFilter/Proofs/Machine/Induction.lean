import RecordFilter.Reading.Machine

/-!
# Induction over a run

A run ends at the end of its window or at a failing step, or goes on after a successful
one.  Whatever a step does with a group, it does through the run over the contents of
the group, whose window is shorter; so a claim about all runs may be assumed of these.

* `run_induction` — the principle, for a claim about a machine and the result of its run.
-/

namespace RecordFilter.Machine

variable {limits : Limits}

/-- The assumption about the runs over contents of groups that the machine `m` may
start. -/
def NestedIn (motive : Nat → Machine → Except SyntaxError (Query × Nat) → Prop)
    (limits : Limits) (depth : Nat) (m : Machine) : Prop :=
  ∀ (w : Window) (clauses : Nat), w.rest.length < m.window.rest.length →
    motive (depth + 1) (start w clauses) (readWindow limits (depth + 1) w clauses)

/-- At the end of its window a machine finishes. -/
theorem run_of_atEnd {depth : Nat} {m : Machine} (h : m.window.peek? = none) :
    run limits depth m = m.finish := by
  rw [run_eq, h]

/-- A run fails with the step that fails. -/
theorem run_of_error {depth : Nat} {m : Machine} {b : UInt8} {e : SyntaxError}
    (hb : m.window.peek? = some b) (h : m.step limits depth b = .error e) :
    run limits depth m = .error e := by
  rw [run_eq, hb]
  dsimp only
  rw [h]

/-- A run goes on behind its first step. -/
theorem run_of_ok {depth : Nat} {m next : Machine} {b : UInt8}
    (hb : m.window.peek? = some b) (h : m.step limits depth b = .ok next) :
    run limits depth m = run limits depth next := by
  rw [run_eq limits depth m, hb]
  dsimp only
  rw [h]

/-- **Induction over a run.** -/
theorem run_induction {motive : Nat → Machine → Except SyntaxError (Query × Nat) → Prop}
    (atEnd : ∀ depth m, m.window.peek? = none → motive depth m m.finish)
    (error : ∀ depth m b e, m.window.peek? = some b → NestedIn motive limits depth m →
      m.step limits depth b = .error e → motive depth m (.error e))
    (ok : ∀ depth m b next, m.window.peek? = some b → NestedIn motive limits depth m →
      m.step limits depth b = .ok next → motive depth next (run limits depth next) →
      motive depth m (run limits depth next))
    (depth : Nat) (m : Machine) : motive depth m (run limits depth m) := by
  induction hn : m.measure using Nat.strongRecOn generalizing depth m with
  | ind n ih =>
      subst hn
      have hnested : NestedIn motive limits depth m := by
        intro w clauses hw
        refine ih _ ?_ (depth + 1) (start w clauses) rfl
        have hstart := measure_start_le w clauses
        have hm : 2 * m.window.rest.length ≤ m.measure := Nat.le_add_right _ _
        omega
      cases hb : m.window.peek? with
      | none =>
          rw [run_of_atEnd hb]
          exact atEnd depth m hb
      | some b =>
          cases hstep : m.step limits depth b with
          | error e =>
              rw [run_of_error hb hstep]
              exact error depth m b e hb hnested hstep
          | ok next =>
              rw [run_of_ok hb hstep]
              exact ok depth m b next hb hnested hstep
                (ih _ (measure_step_lt limits hb hstep) depth next rfl)

end RecordFilter.Machine
