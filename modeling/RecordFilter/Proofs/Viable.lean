import RecordFilter.Proofs.Acceptance
import RecordFilter.Proofs.Location
import RecordFilter.Proofs.Reading.Unexpected
import RecordFilter.Proofs.Reading.Unmatched

/-!
# An unexpected byte is the first that is wrong

If a byte is reported as unexpected, or a parenthesis as unmatched, everything in front of it
could still have become an expression: the report comes no later than the first violation.

What the machine has read is the front of a phrase, so there is always something that completes
it: what lacks to the clause under way, and no more than five bytes of that.  Inside a group
the completed contents make a group, which is a clause of the machine around it, and so on
outwards; each group needs its closing parenthesis.

* `Reached.completes` — what a machine has read in front of the error can be completed;
* `UnderWay.completes` — and with it everything in front of the groups around it;
* `viable_of_parseWith` — the input in front of the error is the front of an accepted one.
-/

namespace RecordFilter

open FunctionCall (IsCall)

/-- The bytes of an expression of the grammar. -/
def IsExpression (bytes : List UInt8) : Prop :=
  ∃ e : Expression, e.WellFormed ∧ bytes = e.bytes

section Expressions

variable {origin : Nat} {first : Option UInt8} {text bytes : List UInt8} {a : Assembly}

/-- A phrase with blanks behind it is an expression. -/
theorem isExpression_phrase {p : Phrase} (hp : p.WellFormed) (gap : Nat) :
    IsExpression (p.bytes ++ Byte.spaces gap) :=
  ⟨⟨0, p, gap⟩, hp, rfl⟩

/-- Blanks may stand in front of an expression. -/
theorem IsExpression.behind_spaces (h : IsExpression bytes) (n : Nat) :
    IsExpression (Byte.spaces n ++ bytes) := by
  obtain ⟨⟨before, p, behind⟩, he, rfl⟩ := h
  refine ⟨⟨n + before, p, behind⟩, he, ?_⟩
  simp only [Expression.bytes, Byte.spaces, ← List.append_assoc,
    List.replicate_append_replicate]

/-- An expression in parentheses is a clause, wherever a clause may start. -/
theorem Opening.isExpression_group (h : Opening origin first text a)
    (hbytes : IsExpression bytes) :
    IsExpression (text ++ Byte.openParen :: (bytes ++ [Byte.closeParen])) := by
  obtain ⟨e, he, rfl⟩ := hbytes
  obtain ⟨p, hp, hpbytes, -⟩ := h.complete (.group e.before e.phrase e.behind) he trivial
    (.inl trivial)
  have hexpression := isExpression_phrase hp 0
  rw [hpbytes] at hexpression
  simpa [Phrase.bytes, Expression.bytes, Byte.spaces] using hexpression

/-- So is a comparison, where a letter may stand. -/
theorem Machine.BeforeLetter.isExpression {c : ComparisonForm}
    (h : Machine.BeforeLetter origin text a) (hc : c.WellFormed) :
    IsExpression (text ++ c.bytes) := by
  obtain ⟨b, hb, hopening⟩ := h
  obtain ⟨p, hp, hpbytes, -⟩ := hopening.complete (.comparison c) hc trivial
    (.inr ⟨b, rfl, hb⟩)
  have hexpression := isExpression_phrase hp 0
  rw [hpbytes] at hexpression
  simpa [Phrase.bytes, Byte.spaces] using hexpression

/-- The bytes `<1`, which make a comparison of any subject. -/
def lessOne : List UInt8 := Operator.less.bytes ++ [0x31]

/-- The group `(a<1)`, which may stand wherever a clause may. -/
def groupLessOne : List UInt8 :=
  Byte.openParen :: ((SubjectForm.key "a").bytes ++ lessOne ++ [Byte.closeParen])

/-- A subject where a key may start is completed by an operator and a value. -/
theorem Machine.BeforeLetter.isExpression_subject {s : SubjectForm}
    (h : Machine.BeforeLetter origin text a) (hs : s.WellFormed) (gap : Nat) :
    IsExpression (text ++ (s.bytes ++ Byte.spaces gap ++ lessOne)) := by
  have hc : ComparisonForm.WellFormed ⟨s, gap, .less, 0, .integer 1, [0x31]⟩ :=
    ⟨hs, Value.writes_one⟩
  simpa [ComparisonForm.bytes, Byte.spaces, lessOne] using h.isExpression hc

/-- A small group may stand wherever a clause may start. -/
theorem Opening.isExpression_groupLessOne (h : Opening origin first text a) :
    IsExpression (text ++ groupLessOne) := by
  have hone : IsExpression ((SubjectForm.key "a").bytes ++ lessOne) :=
    isExpression_phrase (p := .comparison ⟨.key "a", 0, .less, 0, .integer 1, [0x31]⟩)
      ⟨(by decide : IsName "a"), Value.writes_one⟩ 0
  exact h.isExpression_group hone

end Expressions

namespace Machine

variable {limits : Limits} {input : List UInt8} {depth room offset : Nat} {w : Window}
  {m : Machine} {text : List UInt8} {b : UInt8} {e : SyntaxError}

/-! ## What a machine has read -/

/-- **In every state** what has been read can be completed, by five bytes at most. -/
theorem Progress.exists_completion {origin : Nat} {ahead : Window} {state : State}
    {a : Assembly} (h : Progress origin ahead text state a) :
    ∃ more : List UInt8, more.length ≤ 5 ∧ IsExpression (text ++ more) := by
  cases h with
  | start hopening => exact ⟨groupLessOne, by decide, hopening.isExpression_groupLessOne⟩
  | key hbefore hne hletters =>
      obtain ⟨name, hname, hbytes⟩ := exists_name_of_letters
        (List.reverse_ne_nil_iff.mpr hne) fun c hc => hletters c (List.mem_reverse.mp hc)
      have hkey := hbefore.isExpression_subject (s := .key name) hname 0
      refine ⟨lessOne, by decide, ?_⟩
      rw [← hbytes]
      simpa [SubjectForm.bytes, Byte.spaces] using hkey
  | subject hbefore hs =>
      refine ⟨lessOne, by decide, ?_⟩
      rw [List.append_assoc]
      exact hbefore.isExpression_subject hs _
  | @call front _ name gap hbefore hname =>
      have hempty : CallForm.WellFormed ⟨"a", 0, []⟩ := ⟨by decide, by simp⟩
      have hcall := hbefore.isExpression_subject (s := .call name gap _) ⟨hname, hempty⟩ 0
      refine ⟨CallForm.bytes ⟨"a", 0, []⟩ ++ lessOne, by decide, ?_⟩
      simpa [SubjectForm.bytes, Byte.spaces] using hcall
  | group hopening =>
      refine ⟨(SubjectForm.key "a").bytes ++ lessOne ++ [Byte.closeParen], by decide, ?_⟩
      rw [List.append_assoc]
      exact hopening.isExpression_groupLessOne
  | @operand _ _ s before behind o hbefore hs =>
      refine ⟨[0x31], by decide, ?_⟩
      have hone := hbefore.isExpression (c := ⟨s, before, o, behind, .integer 1, [0x31]⟩)
        ⟨hs, Value.writes_one⟩
      rw [List.append_assoc]
      exact hone
  | connector hp _ =>
      refine ⟨[], by decide, ?_⟩
      rw [List.append_nil]
      exact isExpression_phrase hp _

/-- What a machine has read so far can be completed. -/
theorem Reached.completes_text (h : Reached w text m) :
    Completes IsExpression 5 w m.window.pos := by
  obtain ⟨more, hlength, hmore⟩ := h.progress.exists_completion
  exact ⟨text, m.window, more, h.takes, rfl, hlength, hmore⟩

/-! ## What is in front of an error -/

/-- Where no clause can begin, the error is at the next byte. -/
theorem begin_offset (h : m.begin limits b = .error e) : e.offset = m.window.pos := by
  unfold begin Window.failure at h
  grind

/-- A call that is broken off by an unexpected byte is completed to a comparison. -/
theorem Reached.completes_call {k : Key} (h : Reached w text m) (hstate : m.state = .call k)
    (hread : FunctionCall.read k m.window = .error e) (he : e.violation = .unexpectedByte) :
    Completes IsExpression 5 w e.offset := by
  have hprogress := h.progress
  have htakes := h.takes
  rw [hstate] at hprogress
  cases hprogress with
  | @call front _ name gap hbefore hname =>
    refine (FunctionCall.completes hread he).extend htakes lessOne ?_
    intro s hs
    obtain ⟨c, hc, rfl⟩ := hs
    have hcall := hbefore.isExpression_subject (s := .call name gap c) ⟨hname, hc⟩ 0
    simpa [SubjectForm.bytes, Byte.spaces] using hcall

/-- A closing parenthesis in place of a value, or behind it, leaves a comparison in front
that lacks its value, or nothing. -/
theorem Reached.completes_operand {s : Subject} {o : Operator} (h : Reached w text m)
    (hstate : m.state = .operand s o) (hread : Literal.read .operand m.window = .error e)
    (he : e.violation = .unexpectedByte ∨ e.violation = .unmatchedGrouping) :
    Completes IsExpression 5 w e.offset := by
  have hprogress := h.progress
  have htakes := h.takes
  rw [hstate] at hprogress
  cases hprogress with
  | @operand front _ s before behind _ hbefore hs =>
    rcases he with he | he
    · rw [(Literal.fails_of_read hread).offset_of_unexpected he]
      exact h.completes_text
    · obtain ⟨-, literal, after, hliteral, hwrites, hoffset, -⟩ :=
        Literal.offset_of_unmatched hread he
      rcases hwrites with rfl | ⟨value, hwrites⟩
      · rw [hoffset, hliteral.eq_of_nil rfl]
        exact h.completes_text
      · refine ⟨_, after, [], htakes.trans hliteral, hoffset, by decide, ?_⟩
        have hcomparison := hbefore.isExpression (c := ⟨s, before, o, behind, value, literal⟩)
          ⟨hs, hwrites⟩
        simpa [ComparisonForm.bytes] using hcomparison

/-- Behind an opening parenthesis only the parenthesis can be to blame, and a group may stand
in its place. -/
theorem Reached.completes_group {opening : Nat} (h : Reached w text m)
    (hstate : m.state = .group opening) : Completes IsExpression 5 w opening := by
  obtain ⟨front, rfl, rfl, hopening⟩ := h.of_group hstate
  obtain ⟨v, hfront, -⟩ := h.takes.split
  exact ⟨front, v, groupLessOne, hfront, hfront.pos_eq.symm, by decide,
    hopening.isExpression_groupLessOne⟩

/-- **What is in front of an unexpected byte or an unmatched parenthesis can be completed.** -/
theorem Reached.completes (h : Reached w text m) (hraises : m.Raises limits depth e)
    (he : e.violation = .unexpectedByte ∨ e.violation = .unmatchedGrouping) :
    Completes IsExpression 5 w e.offset := by
  have hhere : e.offset = m.window.pos → Completes IsExpression 5 w e.offset := by
    intro hoffset
    rw [hoffset]
    exact h.completes_text
  cases h.failure hraises with
  | tooDeep hstate => exact h.completes_group hstate
  | unclosed hstate => exact h.completes_group hstate
  | truncated _ => rcases he with he | he <;> cases he
  | start _ _ hbegin => exact hhere (begin_offset hbegin)
  | subject _ hread =>
      rcases he with he | he
      · exact hhere (Operator.offset_of_unexpected hread he)
      · exact absurd he (Operator.not_unmatched hread)
  | call hstate hread =>
      exact h.completes_call hstate hread
        (he.resolve_right (FunctionCall.not_unmatched hread))
  | operand hstate hread => exact h.completes_operand hstate hread he
  | connector _ hread =>
      rcases he with he | he
      · exact hhere (Connector.offset_of_unexpected hread he)
      · exact hhere (Connector.offset_of_unmatched hread he).1

/-! ## What is around a group -/

/-- The window of a group is a part of the window of the machine around it. -/
theorem Enters.completes {P : List UInt8 → Prop} {v : Window} (h : m.Enters limits depth v)
    (hcompletes : Completes P room v offset) : Completes P room m.window offset := by
  obtain ⟨-, hpos, rest, hrest⟩ := h.takes
  obtain ⟨taken, after, more, htaken, hoffset, hlength, hP⟩ := hcompletes
  refine ⟨taken, ⟨after.pos, after.rest ++ Byte.closeParen :: rest⟩, more, ⟨?_, ?_⟩, hoffset,
    hlength, hP⟩
  · rw [hrest, htaken.rest_eq, List.append_assoc]
  · rw [hpos]
    exact htaken.pos_eq

/-- **What is completed in the window of a machine is completed in the whole input**, by a
closing parenthesis for each group around it. -/
theorem UnderWay.completes (h : UnderWay limits input depth w m)
    (hcompletes : Completes IsExpression room w offset) :
    Completes IsExpression (room + depth) ⟨0, input⟩ offset := by
  induction h generalizing room with
  | start => exact hcompletes
  | step _ _ _ ih => exact ih hcompletes
  | @enter depth w v m hm hv ih =>
      obtain ⟨text, htext⟩ := hm.reached
      obtain ⟨opening, hstate⟩ := hv.state
      obtain ⟨front, rfl, -, hopening⟩ := htext.of_group hstate
      obtain ⟨n, hn⟩ := w.takes_spaces
      -- One level further out the contents are a group, at the cost of its parenthesis.
      have hgroup : Completes IsExpression (room + 1) w offset := by
        refine (hv.completes hcompletes).extend (hn.trans htext.takes) [Byte.closeParen] ?_
        intro s hs
        simpa using (hopening.isExpression_group hs).behind_spaces n
      have hall := ih hgroup
      rw [Nat.add_assoc, Nat.add_comm 1] at hall
      exact hall

/-- **What is in front of the error can be completed**, under any limits, by bytes that make it
no more than four bytes longer than the input. -/
theorem Raised.exists_completion (h : Raised limits input e)
    (he : e.violation = .unexpectedByte ∨ e.violation = .unmatchedGrouping) :
    ∃ more, (input.take e.offset ++ more).length ≤ input.length + 4 ∧
      IsExpression (input.take e.offset ++ more) := by
  obtain ⟨depth, w, m, hm, hraises⟩ := h
  obtain ⟨text, htext⟩ := hm.reached
  obtain ⟨n, hn⟩ := w.takes_spaces
  have hwindow : Completes IsExpression 5 w e.offset := by
    refine (htext.completes hraises he).extend hn [] ?_
    intro s hs
    simpa using hs.behind_spaces n
  obtain ⟨taken, after, more, htaken, hoffset, hlength, hexpression⟩ :=
    hm.completes hwindow
  have hoffset : e.offset = taken.length := by
    rw [hoffset, htaken.pos_eq, Nat.zero_add]
  have htake : input.take e.offset = taken := by
    rw [hoffset, show input = taken ++ after.rest from htaken.rest_eq, List.take_left]
  refine ⟨more, ?_, ?_⟩
  · -- The error stands inside the window, and behind that are the parentheses of the groups.
    obtain ⟨front, back, hw⟩ := hm.situated
    have hinside : e.offset < w.stop := by
      apply (hm.fits hraises).offset_lt
      rcases he with he | he <;> rw [he] <;> decide
    have hinput := congrArg List.length hw.input_eq
    have hdepth := hw.depth_le
    have hpos := hw.pos_eq
    rw [Window.stop] at hinside
    rw [htake]
    simp only [List.length_append] at hinput ⊢
    omega
  · rw [htake]
    exact hexpression

end Machine

/-- The greatest limits accept every expression that can be counted. -/
theorem IsExpression.parseWith_unlimited {bytes : List UInt8} (h : IsExpression bytes)
    (hlength : bytes.length < UInt64.size) : ∃ q, parseWith .unlimited bytes = .ok q := by
  obtain ⟨e, he, rfl⟩ := h
  have hmax : Limits.unlimited.inputLength.toNat = UInt64.size - 1 := rfl
  refine ⟨e.query 0, ?_⟩
  rw [parseWith_expression he (by omega), Expression.excess?_unlimited hlength]
  rfl

/-- **A byte that is unexpected, or a parenthesis that is unmatched, is the first thing that is
wrong**: what is in front of it is the front of an input that is accepted.  The input has to
leave room for the few bytes that may be needed beyond its length, as every input that fits
into memory does. -/
theorem viable_of_parseWith {input : List UInt8} {e : SyntaxError}
    (hlength : input.length + 4 < UInt64.size) (h : parseWith .unlimited input = .error e)
    (he : e.violation = .unexpectedByte ∨ e.violation = .unmatchedGrouping) :
    ∃ more q, parseWith .unlimited (input.take e.offset ++ more) = .ok q := by
  rcases parseWith_eq_error_iff.mp h with ⟨-, rfl⟩ | hraised
  · rcases he with he | he <;> cases he
  · obtain ⟨more, hmore, hexpression⟩ := hraised.exists_completion he
    exact ⟨more, hexpression.parseWith_unlimited (by omega)⟩

/-- No value starts with the last byte but one of `(a==@)`, but what is in front of it can be
completed to a comparison in a group. -/
theorem viable_of_parseWith_openComparison :
    let input := Utf8.encode "(a==@)"
    input.length + 4 < UInt64.size ∧
      parseWith .unlimited input = .error ⟨.unexpectedByte, 4, .value, Hint.value⟩ ∧
      ∃ more q, parseWith .unlimited (Utf8.encode "(a==" ++ more) = .ok q := by
  intro input
  have hlength : input.length + 4 < UInt64.size := by decide
  have hread : parseWith .unlimited input =
      .error ⟨.unexpectedByte, 4, .value, Hint.value⟩ := by
    with_unfolding_all rfl
  have hfront : input.take 4 = Utf8.encode "(a==" := by decide
  refine ⟨hlength, hread, ?_⟩
  rw [← hfront]
  exact viable_of_parseWith hlength hread (.inl rfl)

end RecordFilter
