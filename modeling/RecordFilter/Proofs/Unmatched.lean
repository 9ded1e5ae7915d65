import RecordFilter.Parse
import RecordFilter.Proofs.Grouping.Phrase
import RecordFilter.Proofs.Machine.Progress
import RecordFilter.Proofs.Reading.Unmatched

/-!
# Parentheses without a partner

A machine reports an unmatched parenthesis only where there is one in its window.  What it
has read before is balanced, since it is the front of a phrase; so a closing parenthesis
that it meets has nothing to close, and the scan from an opening one has looked at all that
is left.  The window of a group is balanced as a whole, and so is never to blame.

* `Reached.unmatched_step` — a step that reports a parenthesis is right;
* `unmatched_of_run` — so is a run.
-/

namespace RecordFilter

open Grouping

/-! ## What has been read is balanced -/

section Balanced

variable {origin : Nat} {first : Option UInt8} {text : List UInt8} {a : Assembly}
  {ahead : Window} {state : State}

/-- What stands in front of a clause is balanced. -/
theorem Opening.balanced (h : Opening origin first text a) : Balanced text := by
  cases h with
  | nothing => exact balanced_nil
  | connector hp _ htoken _ =>
      exact ((hp.balanced.append (balanced_spaces _)).append htoken.balanced).append
        (balanced_spaces _)

/-- What stands in front of a key is balanced. -/
theorem Machine.BeforeLetter.balanced (h : Machine.BeforeLetter origin text a) :
    Balanced text := by
  obtain ⟨b, -, hopening⟩ := h
  exact hopening.balanced

/-- Unless a parenthesis has just been opened, what has been read is balanced. -/
theorem Machine.Progress.balanced (h : Machine.Progress origin ahead text state a)
    (hstate : ∀ opening, state ≠ .group opening) : Balanced text := by
  cases h with
  | start hopening => exact hopening.balanced
  | key hfront _ hletters =>
      exact hfront.balanced.append
        (balanced_of_letters fun b hb => hletters b (List.mem_reverse.mp hb))
  | subject hfront hs => exact hfront.balanced.append (hs.balanced.append (balanced_spaces _))
  | call hfront hname =>
      exact hfront.balanced.append ((balanced_of_letters hname.letters_encode).append
        ((balanced_byte (b := Byte.dot) (by decide)).append (balanced_spaces _)))
  | group _ => exact absurd rfl (hstate _)
  | @operand _ _ _ _ _ o hfront hs =>
      exact hfront.balanced.append (((hs.balanced.append (balanced_spaces _)).append
        o.balanced_bytes).append (balanced_spaces _))
  | connector hp _ => exact hp.balanced.append (balanced_spaces _)

end Balanced

namespace Machine

variable {limits : Limits} {depth : Nat} {w : Window} {text : List UInt8} {m : Machine}
  {b : UInt8} {e : SyntaxError}

/-- The error stands at a parenthesis of the window that has no partner. -/
def Blames (w : Window) (e : SyntaxError) : Prop :=
  ∃ k, e.offset = w.pos + k ∧ Unmatched w.rest k

/-- What a reading that fails says about parentheses is right. -/
def Sincere {α : Type} (w : Window) (r : Except SyntaxError α) : Prop :=
  ∀ e, r = .error e → e.violation = .unmatchedGrouping → Blames w e

/-- A closing parenthesis at the front is to blame. -/
theorem blames_of_close (hb : w.peek? = some Byte.closeParen) (he : e.offset = w.pos) :
    Blames w e := by
  refine ⟨0, he, ?_⟩
  obtain ⟨rest, hrest⟩ := List.head?_eq_some_iff.mp hb
  rw [hrest]
  exact unmatched_cons_close rest

/-- An error behind balanced text is one of the whole window. -/
theorem Blames.of_takes {after : Window} (h : Blames after e) (htakes : w.Takes text after)
    (htext : Balanced text) : Blames w e := by
  obtain ⟨k, hk, hunmatched⟩ := h
  refine ⟨text.length + k, ?_, ?_⟩
  · rw [hk, htakes.pos_eq, Nat.add_assoc]
  · rw [htakes.rest_eq]
    exact hunmatched.append_left htext

/-- A parenthesis that was opened last has no partner if the scan finds none. -/
theorem Reached.blames_opening {opening : Nat} (h : Reached w text m)
    (hstate : m.state = .group opening) (hclosing : closing? m.window.rest = none)
    (he : e.offset = opening) : Blames w e := by
  have hprogress := h.progress
  have htakes := h.takes
  rw [hstate] at hprogress
  cases hprogress with
  | @group front _ hopening =>
    obtain ⟨v, hfront, hopen⟩ := htakes.split
    have hv : v.rest = Byte.openParen :: m.window.rest := hopen.rest_eq
    have hlast : Blames v e := by
      refine ⟨0, ?_, hv ▸ unmatched_of_closing?_none hclosing⟩
      rw [he, hfront.pos_eq, Nat.add_zero]
    exact hlast.of_takes hfront hopening.balanced

/-! ## The steps -/

/-- A step that begins no clause blames a parenthesis only if it is unmatched. -/
theorem begin_sincere (hb : m.window.peek? = some b) :
    Sincere m.window (m.begin limits b) := by
  intro e h he
  unfold begin Window.failure at h
  dsimp only at h
  split at h
  · split at h <;> cases h
    cases he
  split at h
  · split at h <;> cases h
    cases he
  split at h
  · next hclose =>
    cases h
    exact blames_of_close (hclose ▸ hb) rfl
  · cases h
    cases he

/-- A step in a key blames no parenthesis. -/
theorem continueKey_sincere {start : Nat} {letters : List UInt8} :
    Sincere m.window (m.continueKey start letters b) := by
  intro e h he
  unfold continueKey at h
  split at h
  · cases h
  split at h
  · next hname =>
    cases h
    exact absurd he (readName_not_unmatched hname)
  split at h
  · cases h
  split at h <;> cases h

/-- A step that reads no operator blames no parenthesis. -/
theorem readOperator_sincere {s : Subject} : Sincere m.window (m.readOperator s) := by
  intro e h he
  exact absurd he (Operator.not_unmatched (readOperator_eq_error_iff.mp h))

/-- A step that reads no call blames no parenthesis. -/
theorem readCall_sincere {k : Key} : Sincere m.window (m.readCall k) := by
  intro e h he
  exact absurd he (FunctionCall.not_unmatched (readCall_eq_error_iff.mp h))

/-- A step that reads no value blames a parenthesis only if it is unmatched. -/
theorem readOperand_sincere {s : Subject} {o : Operator} :
    Sincere m.window (m.readOperand s o) := by
  intro e h he
  obtain ⟨-, literal, after, htakes, hliteral, hoffset, hclose⟩ :=
    Literal.offset_of_unmatched (readOperand_eq_error_iff.mp h) he
  apply (blames_of_close hclose hoffset).of_takes htakes
  rcases hliteral with rfl | ⟨value, hwrites⟩
  · exact balanced_nil
  · exact hwrites.balanced

/-- A step that reads no connector blames a parenthesis only if it is unmatched. -/
theorem readConnector_sincere : Sincere m.window m.readConnector := by
  intro e h he
  obtain ⟨hoffset, hclose⟩ :=
    Connector.offset_of_unmatched (readConnector_eq_error_iff.mp h) he
  exact blames_of_close hclose hoffset

/-- A group is blamed for its own parenthesis only: its window is balanced. -/
theorem Reached.readGroup_sincere {opening : Nat} (h : Reached w text m)
    (hstate : m.state = .group opening)
    (hnested : ∀ (v : Window) (clauses : Nat), v.rest.length < m.window.rest.length →
      Sincere v (readWindow limits (depth + 1) v clauses)) :
    Sincere w (m.step limits depth b) := by
  intro e herror he
  rw [step_group limits depth b hstate] at herror
  split at herror
  · cases herror
    cases he
  split at herror
  · next hclosing =>
    cases herror
    exact h.blames_opening hstate hclosing rfl
  · next inside hclosing =>
    split at herror
    · next hread =>
      cases herror
      have hlt := closing?_lt hclosing
      obtain ⟨k, -, hunmatched⟩ := hnested _ _ (by rw [List.length_take]; omega) _ hread he
      exact absurd hunmatched (balanced_of_closing? hclosing).1.not_unmatched
    · cases herror

/-- **A step that reports a parenthesis is right**, if the runs over contents of groups
are. -/
theorem Reached.unmatched_step (h : Reached w text m) (hb : m.window.peek? = some b)
    (hnested : ∀ (v : Window) (clauses : Nat), v.rest.length < m.window.rest.length →
      Sincere v (readWindow limits (depth + 1) v clauses)) :
    Sincere w (m.step limits depth b) := by
  have hlocal : (∀ opening, m.state ≠ .group opening) →
      Sincere m.window (m.step limits depth b) → Sincere w (m.step limits depth b) :=
    fun hstate hstep e herror he =>
      (hstep e herror he).of_takes h.takes (h.progress.balanced hstate)
  cases hstate : m.state with
  | group opening => exact h.readGroup_sincere hstate hnested
  | start =>
      apply hlocal (by simp [hstate])
      rw [step_start hstate]
      exact begin_sincere hb
  | key start letters =>
      apply hlocal (by simp [hstate])
      rw [step_key hstate]
      exact continueKey_sincere
  | subject s =>
      apply hlocal (by simp [hstate])
      rw [step_subject hstate]
      exact readOperator_sincere
  | call k =>
      apply hlocal (by simp [hstate])
      rw [step_call hstate]
      exact readCall_sincere
  | operand s o =>
      apply hlocal (by simp [hstate])
      rw [step_operand hstate]
      exact readOperand_sincere
  | connector =>
      apply hlocal (by simp [hstate])
      rw [step_connector hstate]
      exact readConnector_sincere

/-- At the end of a window only a parenthesis that was opened last is without a partner. -/
theorem Reached.unmatched_finish (h : Reached w text m) (hend : m.window.peek? = none) :
    Sincere w m.finish := by
  intro e herror he
  unfold Machine.finish Window.truncated at herror
  split at herror
  · split at herror <;> cases herror
    cases he
  · next opening hstate =>
    cases herror
    refine h.blames_opening hstate ?_ rfl
    rw [Window.peek?_eq_none_iff.mp hend]
    rfl
  · cases herror
    cases he

/-! ## Runs -/

/-- Blanks in front of a window make no difference to what it may be blamed for. -/
theorem Sincere.of_skipSpaces {α : Type} {r : Except SyntaxError α}
    (h : Sincere w.skipSpaces r) : Sincere w r := by
  intro e herror he
  obtain ⟨n, hn⟩ := w.takes_spaces
  exact (h e herror he).of_takes hn (balanced_spaces n)

/-- **A run that reports a parenthesis is right.** -/
theorem unmatched_of_run (depth : Nat) (m : Machine) :
    ∀ w text, Reached w text m → Sincere w (run limits depth m) := by
  refine run_induction (motive := fun _ m r => ∀ w text, Reached w text m → Sincere w r)
    ?_ ?_ ?_ depth m
  · intro depth m hend w text h
    exact h.unmatched_finish hend
  · intro depth m b e hb hnested hstep w text h
    have hstepSincere := h.unmatched_step hb fun v clauses hv =>
      (hnested v clauses hv _ _ (reached_start v clauses)).of_skipSpaces
    intro error heq he
    cases heq
    exact hstepSincere e hstep he
  · intro depth m b next hb _ hstep ih w text h
    obtain ⟨more, hmore⟩ := h.step hb hstep
    exact ih w _ hmore

/-- A parenthesis that is blamed in a window is unmatched in it. -/
theorem unmatched_of_readWindow (limits : Limits) (depth : Nat) (w : Window) (clauses : Nat) :
    Sincere w (readWindow limits depth w clauses) :=
  (unmatched_of_run depth _ _ _ (reached_start w clauses)).of_skipSpaces

end Machine

/-- **What is reported about parentheses is right.**  An expression that is refused for an
unmatched parenthesis has one at the offset that is told.  The machine inside a group, whose
window ends at the partner of its opening parenthesis, never reports one. -/
theorem unmatched_of_parseWith (limits : Limits) :
    (∀ (input : List UInt8) (e : SyntaxError), parseWith limits input = .error e →
      e.violation = .unmatchedGrouping → Unmatched input e.offset) ∧
    (∀ (depth pos inside clauses : Nat) (rest : List UInt8) (e : SyntaxError),
      closing? rest = some inside →
      Machine.readWindow limits (depth + 1) ⟨pos, rest.take inside⟩ clauses = .error e →
      e.violation ≠ .unmatchedGrouping) := by
  refine ⟨?_, ?_⟩
  · intro input e h he
    unfold parseWith at h
    split at h
    · cases h
      cases he
    · cases hread : Machine.readWindow limits 0 ⟨0, input⟩ 0 with
      | ok result =>
          rw [hread] at h
          cases h
      | error error =>
          rw [hread] at h
          cases h
          obtain ⟨k, hk, hunmatched⟩ :=
            Machine.unmatched_of_readWindow limits 0 ⟨0, input⟩ 0 e hread he
          rw [hk, Nat.zero_add]
          exact hunmatched
  · intro depth pos inside clauses rest e hclosing h he
    obtain ⟨k, -, hunmatched⟩ := Machine.unmatched_of_readWindow limits (depth + 1) _ clauses
      e h he
    exact (balanced_of_closing? hclosing).1.not_unmatched hunmatched

/-- The parenthesis that closes nothing in `(a==1))`. -/
theorem unmatched_of_parseWith_smallGroup :
    parseWith .standard (Expression.smallGroup.bytes ++ [Byte.closeParen]) =
        .error ⟨.unmatchedGrouping, 6, .connector, Connector.validSymbols⟩ ∧
      Unmatched (Expression.smallGroup.bytes ++ [Byte.closeParen]) 6 := by
  have h : parseWith .standard (Expression.smallGroup.bytes ++ [Byte.closeParen]) =
      .error ⟨.unmatchedGrouping, 6, .connector, Connector.validSymbols⟩ := by
    with_unfolding_all rfl
  exact ⟨h, (unmatched_of_parseWith .standard).1 _ _ h rfl⟩

end RecordFilter
