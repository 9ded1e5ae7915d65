import RecordFilter.Proofs.Machine.UnderWay

/-!
# What a machine fails with

All that a machine can raise, state by state: it fails as the reader of its state does, or the
clause is one too many, or the group behind the parenthesis is too deep or has no end, or its
window ends too early.  The letters of a key are the exception; they never fail.

* `Reached.failure` — one case for everything that a machine raises.
-/

namespace RecordFilter.Machine

/-- The errors that a machine raises, with their reasons. -/
inductive Failure (limits : Limits) (m : Machine) : SyntaxError → Prop
  | tooDeep {opening : Nat} (hstate : m.state = .group opening) :
      Failure limits m ⟨.limitExceeded, opening, .group, "shallower nesting (see max_depth)"⟩
  | unclosed {opening : Nat} (hstate : m.state = .group opening) :
      Failure limits m ⟨.unmatchedGrouping, opening, .group, State.groupHint⟩
  | truncated {part : Part} {hint : String} (hpart : part ≠ .group) :
      Failure limits m ⟨.truncatedInput, m.window.stop, part, hint⟩
  | start {b : UInt8} {e : SyntaxError} (hstate : m.state = .start)
      (hb : m.window.peek? = some b) (h : m.begin limits b = .error e) : Failure limits m e
  | subject {s : Subject} {e : SyntaxError} (hstate : m.state = .subject s)
      (h : Operator.read m.window = .error e) : Failure limits m e
  | call {k : Key} {e : SyntaxError} (hstate : m.state = .call k)
      (h : FunctionCall.read k m.window = .error e) : Failure limits m e
  | operand {s : Subject} {o : Operator} {e : SyntaxError} (hstate : m.state = .operand s o)
      (h : Literal.read .operand m.window = .error e) : Failure limits m e
  | connector {e : SyntaxError} (hstate : m.state = .connector)
      (h : Connector.read m.window = .error e) : Failure limits m e

variable {limits : Limits} {depth : Nat} {w : Window} {m : Machine} {text : List UInt8}
  {b : UInt8} {e : SyntaxError}

/-- The letters of a key can always be gone on with: they spell a name. -/
theorem Reached.continueKey_ne_error {start : Nat} {letters : List UInt8}
    (h : Reached w text m) (hstate : m.state = .key start letters) :
    m.continueKey start letters b ≠ .error e := by
  have hprogress := h.progress
  rw [hstate] at hprogress
  cases hprogress with
  | key _ hne hletters =>
    obtain ⟨name, -, hbytes⟩ := exists_name_of_letters
      (List.reverse_ne_nil_iff.mpr hne) fun c hc => hletters c (List.mem_reverse.mp hc)
    intro herror
    unfold Machine.continueKey at herror
    rw [← hbytes, readName_encode] at herror
    dsimp only at herror
    split at herror
    · cases herror
    split at herror
    · cases herror
    split at herror <;> cases herror

/-- A machine that has just opened a group, and hands over to no other, fails because the
group is too deep or has no end. -/
theorem failure_of_step_group {opening : Nat} (hstate : m.state = .group opening)
    (hself : ∀ v, ¬m.Enters limits depth v) (h : m.step limits depth b = .error e) :
    Failure limits m e := by
  rw [step_group limits depth b hstate] at h
  split at h
  · cases h
    exact .tooDeep hstate
  · next hdepth =>
    cases hclosing : Grouping.closing? m.window.rest with
    | none =>
        rw [hclosing] at h
        cases h
        exact .unclosed hstate
    | some inside =>
        exact absurd ⟨opening, inside, hstate, Nat.le_of_not_lt hdepth, hclosing, rfl⟩
          (hself _)

/-- At the end of its window a machine fails there, unless it has just opened a group. -/
theorem failure_of_finish (h : m.finish = .error e) : Failure limits m e := by
  unfold finish at h
  split at h
  · split at h
    · cases h
    · cases h
      exact .truncated (by decide)
  · next hstate =>
    cases h
    exact .unclosed hstate
  · next hgroup =>
    cases h
    apply Failure.truncated
    cases hstate : m.state with
    | group opening => exact absurd hstate (hgroup opening)
    | _ => exact Part.noConfusion

/-- **What a machine raises, and why.** -/
theorem Reached.failure (h : Reached w text m) (hraises : m.Raises limits depth e) :
    Failure limits m e := by
  cases hraises with
  | atEnd _ hfinish => exact failure_of_finish hfinish
  | @step b hb hself hstep =>
      cases hstate : m.state with
      | start => exact .start hstate hb (step_start hstate ▸ hstep)
      | key start letters =>
          exact absurd (step_key hstate ▸ hstep) (h.continueKey_ne_error hstate)
      | subject s =>
          exact .subject hstate (readOperator_eq_error_iff.mp (step_subject hstate ▸ hstep))
      | call k => exact .call hstate (readCall_eq_error_iff.mp (step_call hstate ▸ hstep))
      | group opening => exact failure_of_step_group hstate hself hstep
      | operand s o =>
          exact .operand hstate (readOperand_eq_error_iff.mp (step_operand hstate ▸ hstep))
      | connector =>
          exact .connector hstate
            (readConnector_eq_error_iff.mp (step_connector hstate ▸ hstep))

end RecordFilter.Machine
