import RecordFilter.Parse
import RecordFilter.Proofs.Grouping.Phrase
import RecordFilter.Proofs.Machine.Progress

/-!
# The machines that are under way

A group is read by a machine of its own, which runs to its end inside one step of the machine
around it.  So while an input is read there are always some machines under way, one inside the
other.  An error is raised by the innermost of them, and all the others pass it on as it is.

`UnderWay` says which machines these are, and `Raises` what a machine fails with on its own
account.  What is to be shown of every error is thereby to be shown of a single machine, of
which it is known what it has read and where in the input it stands.

* `parseWith_eq_error_iff` — the errors of a reading are those that a machine under way
  raises;
* `UnderWay.reached`, `UnderWay.situated` — what such a machine has read, and where it stands.
-/

namespace RecordFilter

namespace Machine

/-- The machine `m` inside `depth` groups is about to hand the window `v` over to the machine
of a group. -/
def Enters (limits : Limits) (depth : Nat) (m : Machine) (v : Window) : Prop :=
  ∃ opening inside, m.state = .group opening ∧ depth + 1 ≤ limits.depth.toNat ∧
    Grouping.closing? m.window.rest = some inside ∧
    v = ⟨m.window.pos, m.window.rest.take inside⟩

/-- The machines that are under way while `input` is read: a machine inside `depth` groups,
whose window was `w` at the start, has become `m`. -/
inductive UnderWay (limits : Limits) (input : List UInt8) : Nat → Window → Machine → Prop
  | start (hlength : input.length ≤ limits.inputLength.toNat) :
      UnderWay limits input 0 ⟨0, input⟩ (start ⟨0, input⟩ 0)
  | step {depth : Nat} {w : Window} {m next : Machine} {b : UInt8}
      (h : UnderWay limits input depth w m) (hb : m.window.peek? = some b)
      (hstep : m.step limits depth b = .ok next) : UnderWay limits input depth w next
  | enter {depth : Nat} {w v : Window} {m : Machine} (h : UnderWay limits input depth w m)
      (hv : m.Enters limits depth v) :
      UnderWay limits input (depth + 1) v (start v m.clauses)

/-- What a machine fails with on its own account: at the end of its window, or in a step that
does not hand over to the machine of a group. -/
inductive Raises (limits : Limits) (depth : Nat) (m : Machine) (e : SyntaxError) : Prop
  | atEnd (hend : m.window.peek? = none) (h : m.finish = .error e)
  | step {b : UInt8} (hb : m.window.peek? = some b) (hself : ∀ v, ¬m.Enters limits depth v)
      (h : m.step limits depth b = .error e)

/-- Some machine that is under way while `input` is read raises the error. -/
def Raised (limits : Limits) (input : List UInt8) (e : SyntaxError) : Prop :=
  ∃ depth w m, UnderWay limits input depth w m ∧ m.Raises limits depth e

variable {limits : Limits} {input : List UInt8} {depth : Nat} {w v : Window} {m : Machine}
  {b : UInt8} {e : SyntaxError}

/-! ## Errors are raised once and passed on -/

/-- The machine of a group reads less than the machine around it. -/
theorem Enters.length_lt (h : m.Enters limits depth v) :
    v.rest.length < m.window.rest.length := by
  obtain ⟨opening, inside, -, -, hclosing, rfl⟩ := h
  have hlt := Grouping.closing?_lt hclosing
  rw [List.length_take]
  omega

/-- A step that hands over fails with what the machine of the group fails with. -/
theorem Enters.step_eq_error_iff (h : m.Enters limits depth v) :
    m.step limits depth b = .error e ↔
      readWindow limits (depth + 1) v m.clauses = .error e := by
  obtain ⟨opening, inside, hstate, hdepth, hclosing, rfl⟩ := h
  rw [step_group limits depth b hstate, if_neg (Nat.not_lt.mpr hdepth), hclosing]
  dsimp only
  cases readWindow limits (depth + 1) ⟨m.window.pos, m.window.rest.take inside⟩ m.clauses with
  | error error =>
      constructor
      · intro h
        cases h
        rfl
      · intro h
        cases h
        rfl
  | ok result =>
      constructor
      · intro h
        cases h
      · intro h
        cases h

/-- What a machine raises, its run fails with. -/
theorem Raises.run_eq (h : m.Raises limits depth e) : run limits depth m = .error e := by
  cases h with
  | atEnd hend h => rw [run_of_atEnd hend, h]
  | step hb _ h => exact run_of_error hb h

/-- What a run under way fails with, the whole reading fails with. -/
theorem UnderWay.parseWith_eq (h : UnderWay limits input depth w m)
    (hrun : run limits depth m = .error e) : parseWith limits input = .error e := by
  induction h with
  | start hlength =>
      rw [parseWith, if_neg (Nat.not_lt.mpr hlength), readWindow, hrun]
      rfl
  | step _ hb hstep ih => exact ih ((run_of_ok hb hstep).trans hrun)
  | @enter depth w v m _ hv ih =>
      cases hb : m.window.peek? with
      | none =>
          have hlt := hv.length_lt
          rw [Window.peek?_eq_none_iff.mp hb] at hlt
          exact absurd hlt (Nat.not_lt_zero _)
      | some b => exact ih (run_of_error hb (hv.step_eq_error_iff.mpr hrun))

/-- **What a run under way fails with is raised by a machine under way**: this one, or one
inside it. -/
theorem UnderWay.raised (h : UnderWay limits input depth w m)
    (hrun : run limits depth m = .error e) : Raised limits input e := by
  refine run_induction (motive := fun depth m r => ∀ w, UnderWay limits input depth w m →
    ∀ e, r = .error e → Raised limits input e) ?_ ?_ ?_ depth m w h e hrun
  · intro depth m hend w h e hfinish
    exact ⟨depth, w, m, h, .atEnd hend hfinish⟩
  · intro depth m b error hb hnested hstep w h e heq
    obtain rfl := Except.error.inj heq
    -- A step that hands over fails by the run over the group, whose machine is under way too.
    by_cases hself : ∃ v, m.Enters limits depth v
    · obtain ⟨v, hv⟩ := hself
      exact hnested v m.clauses hv.length_lt v (h.enter hv) _ (hv.step_eq_error_iff.mp hstep)
    · exact ⟨depth, w, m, h, .step hb (fun v hv => hself ⟨v, hv⟩) hstep⟩
  · intro depth m b next hb _ hstep ih w h e hnext
    exact ih w (h.step hb hstep) e hnext

end Machine

/-- **The errors of a reading** are that the input is too long, and whatever a machine under
way raises. -/
theorem parseWith_eq_error_iff {limits : Limits} {input : List UInt8} {e : SyntaxError} :
    parseWith limits input = .error e ↔
      (limits.inputLength.toNat < input.length ∧ e = ⟨.limitExceeded,
        limits.inputLength.toNat, .clause, "a shorter expression (see max_input_len)"⟩) ∨
      Machine.Raised limits input e := by
  constructor
  · intro h
    unfold parseWith at h
    split at h
    · next hlong => exact .inl ⟨hlong, (Except.error.inj h).symm⟩
    · next hlong =>
      refine .inr (Machine.UnderWay.raised (.start (Nat.le_of_not_lt hlong)) ?_)
      change Machine.readWindow limits 0 ⟨0, input⟩ 0 = .error e
      cases hread : Machine.readWindow limits 0 ⟨0, input⟩ 0 with
      | error error =>
          rw [hread] at h
          cases h
          rfl
      | ok result =>
          rw [hread] at h
          cases h
  · intro h
    rcases h with ⟨hlong, rfl⟩ | ⟨depth, w, m, hm, hraises⟩
    · exact if_pos hlong
    · exact hm.parseWith_eq hraises.run_eq

namespace Machine

variable {limits : Limits} {input : List UInt8} {depth : Nat} {w v : Window} {m : Machine}
  {b : UInt8} {e : SyntaxError}

/-! ## What a machine under way has read -/

/-- A machine under way has come as far as some text at the front of its window. -/
theorem UnderWay.reached (h : UnderWay limits input depth w m) :
    ∃ text, Reached w.skipSpaces text m := by
  induction h with
  | start => exact ⟨[], reached_start _ 0⟩
  | step _ hb hstep ih =>
      obtain ⟨text, htext⟩ := ih
      obtain ⟨more, hmore⟩ := htext.step hb hstep
      exact ⟨text ++ more, hmore⟩
  | enter => exact ⟨[], reached_start _ _⟩

/-- A machine that enters a group is in front of its contents. -/
theorem Enters.state (h : m.Enters limits depth v) : ∃ opening, m.state = .group opening := by
  obtain ⟨opening, -, hstate, -⟩ := h
  exact ⟨opening, hstate⟩

/-- The window of a machine that hands over is the window of the group, its closing
parenthesis, and more. -/
theorem Enters.takes (h : m.Enters limits depth v) :
    Grouping.Balanced v.rest ∧ m.window.pos = v.pos ∧
      ∃ more, m.window.rest = v.rest ++ Byte.closeParen :: more := by
  obtain ⟨opening, inside, -, -, hclosing, rfl⟩ := h
  obtain ⟨hbalanced, hclose⟩ := Grouping.balanced_of_closing? hclosing
  obtain ⟨hlt, hbyte⟩ := List.getElem?_eq_some_iff.mp hclose
  refine ⟨hbalanced, rfl, m.window.rest.drop (inside + 1), ?_⟩
  rw [← hbyte, ← List.drop_eq_getElem_cons hlt, List.take_append_drop]

/-- In front of a group stands its opening parenthesis, behind what may precede a clause. -/
theorem Reached.of_group {text : List UInt8} {opening : Nat} (h : Reached w text m)
    (hstate : m.state = .group opening) :
    ∃ front, text = front ++ [Byte.openParen] ∧ opening = w.pos + front.length ∧
      Opening w.pos (some Byte.openParen) front m.assembly := by
  have hprogress := h.progress
  rw [hstate] at hprogress
  cases hprogress with
  | group hopening => exact ⟨_, rfl, rfl, hopening⟩

/-! ## Where it stands -/

/-- The window `w` of a machine inside `depth` groups lies in the input behind `front` and in
front of `back`.  Inside a group it lies between the parentheses and is balanced. -/
structure Situated (input : List UInt8) (depth : Nat) (front : List UInt8) (w : Window)
    (back : List UInt8) : Prop where
  input_eq : input = front ++ (w.rest ++ back)
  pos_eq : w.pos = front.length
  depth_le : depth ≤ back.length
  outermost : depth = 0 → back = []
  inside : 0 < depth → (∃ outer, front = outer ++ [Byte.openParen]) ∧
    (∃ outer, back = Byte.closeParen :: outer) ∧ Grouping.Balanced w.rest

/-- The window of a group lies between its parentheses. -/
theorem Situated.enter {front back text : List UInt8} (h : Situated input depth front w back)
    (hm : Reached w.skipSpaces text m) (hv : m.Enters limits depth v) :
    ∃ front back, Situated input (depth + 1) front v back := by
  obtain ⟨hbalanced, hpos, more, hmore⟩ := hv.takes
  obtain ⟨opening, hstate⟩ := hv.state
  obtain ⟨outer, rfl, -, -⟩ := hm.of_group hstate
  obtain ⟨n, hn⟩ := w.takes_spaces
  have htakes := hn.trans hm.takes
  refine ⟨front ++ (Byte.spaces n ++ (outer ++ [Byte.openParen])),
    Byte.closeParen :: (more ++ back), ?_, ?_, ?_, ?_, ?_⟩
  · rw [h.input_eq, htakes.rest_eq, hmore]
    simp
  · rw [← hpos, htakes.pos_eq, h.pos_eq, ← List.length_append]
  · have hdepth := h.depth_le
    simp only [List.length_cons, List.length_append]
    omega
  · intro hzero
    cases hzero
  · intro _
    exact ⟨⟨front ++ (Byte.spaces n ++ outer), by simp⟩, ⟨_, rfl⟩, hbalanced⟩

/-- **Where a machine under way stands in the input.** -/
theorem UnderWay.situated (h : UnderWay limits input depth w m) :
    ∃ front back, Situated input depth front w back := by
  induction h with
  | start =>
      refine ⟨[], [], by simp, rfl, Nat.le_refl 0, fun _ => rfl, ?_⟩
      intro hpos
      exact absurd hpos (Nat.lt_irrefl 0)
  | step _ _ _ ih => exact ih
  | enter hm hv ih =>
      obtain ⟨front, back, h⟩ := ih
      obtain ⟨text, hreached⟩ := hm.reached
      exact h.enter hreached hv

end Machine

end RecordFilter
