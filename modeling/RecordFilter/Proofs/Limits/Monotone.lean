import RecordFilter.Parse
import RecordFilter.Proofs.Machine.Induction
import RecordFilter.Proofs.Machine.Step

/-!
# Greater limits

A limit does one thing only: it ends a reading with the report that it is exceeded.  Two
machines that are the same but for their limits therefore go through the same states, up to
the step in which the one with the smaller limits stops for that reason; and this holds of
malformed input as well.

* `step_keeps` — one step under smaller and under greater limits;
* `run_keeps` — the two runs;
* `parseWith_of_le` — greater limits change nothing but a report of a limit.
-/

namespace RecordFilter

/-! ## The order of limits -/

/-- Limits are in order if each of them is. -/
instance : LE Limits := ⟨fun limits limits' => ∀ limit, limits.get limit ≤ limits'.get limit⟩

namespace Limits

variable {limits limits' : Limits}

theorem inputLength_le (h : limits ≤ limits') :
    limits.inputLength.toNat ≤ limits'.inputLength.toNat :=
  UInt64.le_iff_toNat_le.mp (h .inputLength)

theorem depth_le (h : limits ≤ limits') : limits.depth.toNat ≤ limits'.depth.toNat :=
  UInt64.le_iff_toNat_le.mp (h .depth)

theorem clauses_le (h : limits ≤ limits') : limits.clauses.toNat ≤ limits'.clauses.toNat :=
  UInt64.le_iff_toNat_le.mp (h .clauses)

end Limits

/-- A limit is what the result `r` reports as exceeded. -/
def Exceeds {α : Type} (r : Except SyntaxError α) : Prop :=
  ∃ e, r = .error e ∧ e.violation = .limitExceeded

/-- The result `r'` is `r`, unless `r` is the report of a limit. -/
def Keeps {α : Type} (r r' : Except SyntaxError α) : Prop := r' = r ∨ Exceeds r

namespace Machine

variable {limits limits' : Limits} {depth : Nat} {m : Machine} {b : UInt8}

/-! ## Steps -/

/-- A clause that begins under some limits begins under greater ones. -/
theorem begin_keeps (hle : limits ≤ limits') :
    Keeps (m.begin limits b) (m.begin limits' b) := by
  have hclauses := Limits.clauses_le hle
  have hbegun : ∀ state : State, Keeps
      (if limits.clauses.toNat < m.clauses + 1 then
        m.window.failure .limitExceeded .clause "fewer clauses (see max_clauses)"
      else .ok { m with window := m.window.skip 1, state := state, clauses := m.clauses + 1 })
      (if limits'.clauses.toNat < m.clauses + 1 then
        m.window.failure .limitExceeded .clause "fewer clauses (see max_clauses)"
      else .ok
        { m with window := m.window.skip 1, state := state, clauses := m.clauses + 1 }) := by
    intro state
    by_cases hmany : limits.clauses.toNat < m.clauses + 1
    · rw [if_pos hmany]
      exact .inr ⟨_, rfl, rfl⟩
    · rw [if_neg hmany, if_neg (by omega)]
      exact .inl rfl
  unfold begin
  dsimp only
  split
  · exact hbegun _
  split
  · exact hbegun _
  · exact .inl rfl

/-- A group is read alike if its contents are. -/
theorem readGroup_keeps {opening : Nat} (hle : limits ≤ limits')
    (hstate : m.state = .group opening)
    (hnested : ∀ (w : Window) (clauses : Nat), w.rest.length < m.window.rest.length →
      Keeps (readWindow limits (depth + 1) w clauses)
        (readWindow limits' (depth + 1) w clauses)) :
    Keeps (m.step limits depth b) (m.step limits' depth b) := by
  have hdepth := Limits.depth_le hle
  rw [step_group limits depth b hstate, step_group limits' depth b hstate]
  by_cases hdeep : limits.depth.toNat < depth + 1
  · rw [if_pos hdeep]
    exact .inr ⟨_, rfl, rfl⟩
  rw [if_neg hdeep, if_neg (by omega)]
  cases hclosing : Grouping.closing? m.window.rest with
  | none => exact .inl rfl
  | some inside =>
      have hlt := Grouping.closing?_lt hclosing
      dsimp only
      rcases hnested ⟨m.window.pos, m.window.rest.take inside⟩ m.clauses
        (by rw [List.length_take]; omega) with hsame | ⟨e, he, hlimit⟩
      · rw [hsame]
        exact .inl rfl
      · rw [he]
        exact .inr ⟨e, rfl, hlimit⟩

/-- **One step under smaller and under greater limits.** -/
theorem step_keeps (hle : limits ≤ limits')
    (hnested : ∀ (w : Window) (clauses : Nat), w.rest.length < m.window.rest.length →
      Keeps (readWindow limits (depth + 1) w clauses)
        (readWindow limits' (depth + 1) w clauses)) :
    Keeps (m.step limits depth b) (m.step limits' depth b) := by
  cases hstate : m.state with
  | start =>
      rw [step_start hstate, step_start hstate]
      exact begin_keeps hle
  | key start letters =>
      rw [step_key hstate, step_key hstate]
      exact .inl rfl
  | subject s =>
      rw [step_subject hstate, step_subject hstate]
      exact .inl rfl
  | call k =>
      rw [step_call hstate, step_call hstate]
      exact .inl rfl
  | group opening => exact readGroup_keeps hle hstate hnested
  | operand s operator =>
      rw [step_operand hstate, step_operand hstate]
      exact .inl rfl
  | connector =>
      rw [step_connector hstate, step_connector hstate]
      exact .inl rfl

/-! ## Runs -/

/-- **A run under smaller and under greater limits.** -/
theorem run_keeps (hle : limits ≤ limits') (depth : Nat) (m : Machine) :
    Keeps (run limits depth m) (run limits' depth m) := by
  refine run_induction (motive := fun depth m r => Keeps r (run limits' depth m))
    ?_ ?_ ?_ depth m
  · intro depth m hend
    rw [run_of_atEnd hend]
    exact .inl rfl
  · intro depth m b e hb hnested hstep
    rcases step_keeps (b := b) hle hnested with hsame | ⟨error, herror, hlimit⟩
    · exact .inl (run_of_error hb (hsame.trans hstep))
    · obtain rfl := Except.error.inj (hstep.symm.trans herror)
      exact .inr ⟨e, rfl, hlimit⟩
  · intro depth m b next hb hnested hstep ih
    rcases step_keeps (b := b) hle hnested with hsame | ⟨error, herror, -⟩
    · rw [run_of_ok hb (hsame.trans hstep)]
      exact ih
    · cases hstep.symm.trans herror

end Machine

/-- **Limits can only turn a result into the report of a limit.**  What comes out under some
limits, be it a query or an error, comes out under all greater ones, unless it is the report
that a limit is exceeded. -/
theorem parseWith_of_le {limits limits' : Limits} {input : List UInt8} (hle : limits ≤ limits')
    (h : ∀ e, parseWith limits input = .error e → e.violation ≠ .limitExceeded) :
    parseWith limits' input = parseWith limits input := by
  have hlength := Limits.inputLength_le hle
  by_cases hlong : limits.inputLength.toNat < input.length
  · exact absurd rfl (h _ (if_pos hlong))
  unfold parseWith at h ⊢
  rw [if_neg hlong] at h ⊢
  rw [if_neg (by omega)]
  rcases Machine.run_keeps hle 0 (Machine.start ⟨0, input⟩ 0) with hsame | ⟨e, he, hlimit⟩
  · exact congrArg (Except.map Prod.fst) hsame
  · refine absurd hlimit (h e ?_)
    rw [Machine.readWindow, he]
    rfl

/-- The limits that `(a==1)` needs, and the standard ones.  One closing parenthesis too many
is refused under both, and in the same words. -/
theorem parseWith_of_le_smallGroup :
    let limits : Limits := ⟨7, 1, 2⟩
    let input := Expression.smallGroup.bytes ++ [Byte.closeParen]
    let error : SyntaxError := ⟨.unmatchedGrouping, 6, .connector, Connector.validSymbols⟩
    limits ≤ .standard ∧ parseWith limits input = .error error ∧
      parseWith .standard input = .error error := by
  intro limits input error
  have hle : limits ≤ .standard := by
    intro limit
    cases limit <;> decide
  have herror : parseWith limits input = .error error := by
    with_unfolding_all rfl
  have hnot : ∀ e, parseWith limits input = .error e → e.violation ≠ .limitExceeded := by
    intro e he
    obtain rfl := Except.error.inj (herror.symm.trans he)
    exact Violation.noConfusion
  exact ⟨hle, herror, (parseWith_of_le hle hnot).trans herror⟩

end RecordFilter
