import RecordFilter.Proofs.Grouping.Balance
import RecordFilter.Proofs.Machine.Induction
import RecordFilter.Proofs.Machine.Step
import RecordFilter.Proofs.Reading.Call

/-!
# How far a machine has come

What a machine has taken from its window is always the front of a phrase, cut where the
state says, and the assembly holds the tree of the clauses in it.  `Progress` lists the
seven cases; it is what every step preserves, whatever the limits are, and at the end of
a window it leaves a whole phrase.

* `Reached.step` — a step goes on with the phrase;
* `derives_of_readWindow` — a window that is read is an expression, and the query is its
  tree.
-/

namespace RecordFilter

/-- What may stand in front of a clause whose first byte is `first`: nothing, or a
phrase and a connector. -/
inductive Opening (origin : Nat) (first : Option UInt8) : List UInt8 → Assembly → Prop
  | nothing : Opening origin first [] .empty
  | connector {p : Phrase} {c : Connector} {token : List UInt8} {before behind : Nat}
      (hp : p.WellFormed) (hvalue : p.EndsInValue → 0 < before) (htoken : c.Writes token)
      (hword : Byte.spells c.word token = true →
        0 < behind ∨ ∀ b, first = some b → Byte.isLetter b = false) :
      Opening origin first
        (p.bytes ++ Byte.spaces before ++ token ++ Byte.spaces behind)
        ⟨some (p.query origin), some c, false⟩

variable {origin : Nat} {first : Option UInt8} {text : List UInt8} {a : Assembly}

/-- A clause completes what stands in front of it to a longer phrase. -/
theorem Opening.complete (clause : Phrase) (h : Opening origin first text a)
    (hclause : clause.WellFormed) (hsingle : clause.IsClause)
    (hfirst : clause.IsGroup ∨ ∃ b, first = some b ∧ Byte.isLetter b = true) :
    ∃ p : Phrase, p.WellFormed ∧ p.bytes = text ++ clause.bytes ∧
      a.pushClause (clause.query (origin + text.length)) =
        ⟨some (p.query origin), none, false⟩ ∧
      (p.EndsInValue → clause.EndsInValue) := by
  cases h with
  | nothing => exact ⟨clause, hclause, rfl, rfl, id⟩
  | @connector p c token before behind hp hvalue htoken hword =>
      refine ⟨.joined p before c token behind clause,
        ⟨hp, hclause, hsingle, htoken, hvalue, ?_⟩, rfl, ?_, id⟩
      · intro hspells
        rcases hword hspells with hbehind | hletter
        · exact .inl hbehind
        · rcases hfirst with hgroup | ⟨b, hb, hisLetter⟩
          · exact .inr hgroup
          · rw [hletter b hb] at hisLetter
            cases hisLetter
      · simp only [Assembly.pushClause, Phrase.query, List.length_append,
          Window.length_spaces, Nat.add_assoc]

namespace Machine

/-- A clause with a letter in front may follow. -/
def BeforeLetter (origin : Nat) (text : List UInt8) (a : Assembly) : Prop :=
  ∃ b, Byte.isLetter b = true ∧ Opening origin (some b) text a

/-- The bytes `text`, taken from offset `origin` on, bring a machine into a state with
an assembly, in front of the window `ahead`. -/
inductive Progress (origin : Nat) (ahead : Window) : List UInt8 → State → Assembly → Prop
  | start {text : List UInt8} {a : Assembly} (h : Opening origin ahead.peek? text a) :
      Progress origin ahead text .start a
  | key {front letters : List UInt8} {a : Assembly} (h : BeforeLetter origin front a)
      (hne : letters ≠ []) (hletters : ∀ b ∈ letters, Byte.isLetter b = true) :
      Progress origin ahead (front ++ letters.reverse)
        (.key (origin + front.length) letters) a
  | subject {front : List UInt8} {a : Assembly} {s : SubjectForm} {gap : Nat}
      (h : BeforeLetter origin front a) (hs : s.WellFormed) :
      Progress origin ahead (front ++ (s.bytes ++ Byte.spaces gap))
        (.subject (s.tree (origin + front.length))) a
  | call {front : List UInt8} {a : Assembly} {name : String} {gap : Nat}
      (h : BeforeLetter origin front a) (hname : IsName name) :
      Progress origin ahead
        (front ++ (Utf8.encode name ++ Byte.dot :: Byte.spaces gap))
        (.call (SubjectForm.keyAt name (origin + front.length))) a
  | group {front : List UInt8} {a : Assembly}
      (h : Opening origin (some Byte.openParen) front a) :
      Progress origin ahead (front ++ [Byte.openParen]) (.group (origin + front.length)) a
  | operand {front : List UInt8} {a : Assembly} {s : SubjectForm} {before behind : Nat}
      {o : Operator} (h : BeforeLetter origin front a) (hs : s.WellFormed) :
      Progress origin ahead
        (front ++ (s.bytes ++ Byte.spaces before ++ o.bytes ++ Byte.spaces behind))
        (.operand (s.tree (origin + front.length)) o) a
  | connector {p : Phrase} {gap : Nat} (hp : p.WellFormed)
      (hvalue : p.EndsInValue → 0 < gap ∨ ahead.rest = []) :
      Progress origin ahead (p.bytes ++ Byte.spaces gap) .connector
        ⟨some (p.query origin), none, false⟩

/-- The machine has taken `text` from the window `w`, and has made the progress that
belongs to it. -/
structure Reached (w : Window) (text : List UInt8) (m : Machine) : Prop where
  takes : w.Takes text m.window
  progress : Progress w.pos m.window text m.state m.assembly

/-- A machine that has just started has taken nothing. -/
theorem reached_start (w : Window) (clauses : Nat) :
    Reached w.skipSpaces [] (start w clauses) :=
  ⟨Window.takes_nil _, .start .nothing⟩

variable {w : Window} {m next : Machine} {limits : Limits} {b : UInt8}

/-! ## The steps, state by state -/

/-- The first byte of a clause is taken. -/
theorem Reached.begin (h : Reached w text m) (hb : m.window.peek? = some b)
    (hstate : m.state = .start) (hnext : m.begin limits b = .ok next) :
    ∃ more, Reached w (text ++ more) next := by
  have hopening : Opening w.pos (some b) text m.assembly := by
    have hprogress := h.progress
    rw [hstate] at hprogress
    cases hprogress with
    | start hopening => exact hb ▸ hopening
  have hpos : m.window.pos = w.pos + text.length := h.takes.pos_eq
  have htakes := h.takes.trans (Window.takes_of_peek? hb)
  unfold Machine.begin Window.failure at hnext
  dsimp only at hnext
  split at hnext
  · next hopen =>
    split at hnext
    · cases hnext
    · cases hnext
      subst hopen
      refine ⟨[Byte.openParen], htakes, ?_⟩
      rw [hpos]
      exact .group hopening
  split at hnext
  · next hletter =>
    split at hnext
    · cases hnext
    · cases hnext
      refine ⟨[b], htakes, ?_⟩
      rw [hpos]
      have hletters : ∀ c ∈ [b], Byte.isLetter c = true := by
        intro c hc
        rw [List.mem_singleton.mp hc]
        exact hletter
      exact .key ⟨b, hletter, hopening⟩ (List.cons_ne_nil b []) hletters
  split at hnext <;> cases hnext

/-- A byte of a key is taken, or what ends the key with the blanks behind it. -/
theorem Reached.continueKey {start : Nat} {letters : List UInt8} (h : Reached w text m)
    (hb : m.window.peek? = some b) (hstate : m.state = .key start letters)
    (hnext : m.continueKey start letters b = .ok next) :
    ∃ more, Reached w (text ++ more) next := by
  have hprogress := h.progress
  have htakes := h.takes
  rw [hstate] at hprogress
  cases hprogress with
  | @key front _ _ hbefore hne hletters =>
    have hone := htakes.trans (Window.takes_of_peek? hb)
    by_cases hletter : Byte.isLetter b = true
    · unfold Machine.continueKey at hnext
      rw [if_pos hletter] at hnext
      cases hnext
      refine ⟨[b], hone, ?_⟩
      have hall : ∀ c ∈ b :: letters, Byte.isLetter c = true := by
        intro c hc
        rcases List.mem_cons.mp hc with rfl | hc
        · exact hletter
        · exact hletters c hc
      have hkey := @Progress.key _ (m.window.skip 1) _ _ _ hbefore
        (List.cons_ne_nil b letters) hall
      simpa using hkey
    · obtain ⟨name, hname, hbytes⟩ := exists_name_of_letters
        (List.reverse_ne_nil_iff.mpr hne) fun c hc => hletters c (List.mem_reverse.mp hc)
      obtain rfl : letters = (Utf8.encode name).reverse := by
        rw [hbytes, List.reverse_reverse]
      rw [List.reverse_reverse] at htakes hone ⊢
      have hpos : m.window.pos = w.pos + front.length + (Utf8.encode name).length := by
        rw [htakes.pos_eq, List.length_append, Nat.add_assoc]
      rw [continueKey_end hpos (Bool.not_eq_true _ ▸ hletter)] at hnext
      dsimp only at hnext
      obtain ⟨n, hn⟩ := (m.window.skip 1).takes_spaces
      split at hnext
      · next hspace =>
        cases hnext
        subst hspace
        refine ⟨Byte.space :: Byte.spaces n, by simpa using hone.trans hn, ?_⟩
        have hsubject := @Progress.subject _ (m.window.skip 1).skipSpaces _ _
          (.key name) (n + 1) hbefore hname
        simpa [SubjectForm.bytes, SubjectForm.tree, Byte.spaces, List.replicate_succ] using hsubject
      split at hnext
      · next hdot =>
        cases hnext
        subst hdot
        refine ⟨Byte.dot :: Byte.spaces n, by simpa using hone.trans hn, ?_⟩
        have hcall := @Progress.call _ (m.window.skip 1).skipSpaces _ _ name n hbefore hname
        simpa using hcall
      · cases hnext
        refine ⟨[], by simpa using htakes, ?_⟩
        have hsubject := @Progress.subject _ m.window _ _ (.key name) 0 hbefore hname
        simpa [SubjectForm.bytes, SubjectForm.tree, Byte.spaces] using hsubject

/-- An operator is taken with the blanks behind it. -/
theorem Reached.readOperator {s : Subject} (h : Reached w text m)
    (hstate : m.state = .subject s) (hnext : m.readOperator s = .ok next) :
    ∃ more, Reached w (text ++ more) next := by
  have hprogress := h.progress
  have htakes := h.takes
  rw [hstate] at hprogress
  cases hprogress with
  | @subject front _ s gap hbefore hs =>
    unfold Machine.readOperator at hnext
    split at hnext
    · cases hnext
    · next o after hread =>
      cases hnext
      obtain ⟨hoperator, -⟩ := Operator.read_eq_ok_iff.mp hread
      obtain ⟨n, hn⟩ := after.takes_spaces
      refine ⟨o.bytes ++ Byte.spaces n, htakes.trans (hoperator.trans hn), ?_⟩
      have hoperand := @Progress.operand _ after.skipSpaces _ _ s gap n o hbefore hs
      simpa using hoperand

/-- A call is taken up to its closing parenthesis, with the blanks behind it. -/
theorem Reached.readCall {k : Key} (h : Reached w text m) (hstate : m.state = .call k)
    (hnext : m.readCall k = .ok next) : ∃ more, Reached w (text ++ more) next := by
  have hprogress := h.progress
  have htakes := h.takes
  rw [hstate] at hprogress
  cases hprogress with
  | @call front _ name gap hbefore hname =>
    unfold Machine.readCall at hnext
    split at hnext
    · cases hnext
    · next call after hread =>
      cases hnext
      obtain ⟨c, hc, hcall, rfl⟩ := FunctionCall.read_eq_ok_iff.mp hread
      obtain ⟨n, hn⟩ := after.takes_spaces
      refine ⟨c.bytes ++ Byte.spaces n, htakes.trans (hcall.trans hn), ?_⟩
      have hpos : m.window.pos = w.pos + front.length + (Utf8.encode name).length + 1 + gap := by
        rw [htakes.pos_eq]
        simp only [List.length_append, List.length_cons, Window.length_spaces]
        omega
      have hsubject := @Progress.subject _ after.skipSpaces _ _ (.call name gap c) n hbefore
        ⟨hname, hc⟩
      rw [hpos]
      simpa [SubjectForm.bytes, SubjectForm.tree] using hsubject

/-- Behind a value stands a blank, or nothing. -/
theorem blank_or_end {after : Window} {n : Nat} (hdelimits : Literal.Delimits .operand after)
    (hn : after.Takes (Byte.spaces n) after.skipSpaces) :
    0 < n ∨ after.skipSpaces.rest = [] := by
  cases n with
  | succ n => exact .inl (Nat.succ_pos n)
  | zero =>
      have hself : after.skipSpaces = after := hn.eq_of_nil rfl
      apply Or.inr
      cases hpeek : after.skipSpaces.peek? with
      | none => exact Window.peek?_eq_none_iff.mp hpeek
      | some b =>
          have hb := hdelimits b (hself ▸ hpeek)
          have hspace : b = Byte.space := by simpa [Place.isDelimiter] using hb
          exact absurd (hspace ▸ hpeek) after.peek?_skipSpaces_ne

/-- A value is taken, and completes a comparison. -/
theorem Reached.readOperand {s : Subject} {o : Operator} (h : Reached w text m)
    (hstate : m.state = .operand s o) (hnext : m.readOperand s o = .ok next) :
    ∃ more, Reached w (text ++ more) next := by
  have hprogress := h.progress
  have htakes := h.takes
  rw [hstate] at hprogress
  cases hprogress with
  | @operand front _ s before behind _ hbefore hs =>
    unfold Machine.readOperand at hnext
    split at hnext
    · cases hnext
    · next value after hread =>
      cases hnext
      obtain ⟨literal, hliteral, hwrites, hdelimits⟩ := Literal.read_eq_ok_iff.mp hread
      obtain ⟨n, hn⟩ := after.takes_spaces
      obtain ⟨b, hb, hopening⟩ := hbefore
      obtain ⟨p, hp, hbytes, hassembly, -⟩ := Opening.complete
        (.comparison ⟨s, before, o, behind, value, literal⟩) hopening ⟨hs, hwrites⟩ trivial
        (.inr ⟨b, rfl, hb⟩)
      refine ⟨literal ++ Byte.spaces n, htakes.trans (hliteral.trans hn), ?_⟩
      have hconnector : Progress w.pos after.skipSpaces (p.bytes ++ Byte.spaces n) .connector
          ⟨some (p.query w.pos), none, false⟩ :=
        .connector hp fun _ => blank_or_end hdelimits hn
      rw [← hassembly, hbytes] at hconnector
      simpa [Phrase.bytes, Phrase.query, ComparisonForm.bytes, ComparisonForm.tree] using
        hconnector

/-- A connector is taken with the blanks behind it. -/
theorem Reached.readConnector (h : Reached w text m) (hb : m.window.peek? = some b)
    (hstate : m.state = .connector) (hnext : m.readConnector = .ok next) :
    ∃ more, Reached w (text ++ more) next := by
  have hprogress := h.progress
  have htakes := h.takes
  rw [hstate] at hprogress
  generalize hassembly : m.assembly = a at hprogress
  cases hprogress with
  | @connector p gap hp hvalue =>
    unfold Machine.readConnector at hnext
    split at hnext
    · cases hnext
    · next c after hread =>
      cases hnext
      obtain ⟨token, htoken, hwrites, hword⟩ := Connector.read_eq_ok_iff.mp hread
      obtain ⟨n, hn⟩ := after.takes_spaces
      refine ⟨token ++ Byte.spaces n, htakes.trans (htoken.trans hn), ?_⟩
      have hblank : p.EndsInValue → 0 < gap := by
        intro hends
        apply (hvalue hends).resolve_right
        rw [← Window.peek?_eq_none_iff, hb]
        exact Option.some_ne_none b
      have hletter : Byte.spells c.word token = true →
          0 < n ∨ ∀ d, after.skipSpaces.peek? = some d → Byte.isLetter d = false := by
        intro hspells
        cases n with
        | succ n => exact .inl (Nat.succ_pos n)
        | zero =>
            have hself : after.skipSpaces = after := hn.eq_of_nil rfl
            rw [hself]
            exact .inr (hword hspells)
      have hopening : Opening w.pos after.skipSpaces.peek?
          (p.bytes ++ Byte.spaces gap ++ token ++ Byte.spaces n)
          ⟨some (p.query w.pos), some c, false⟩ := .connector hp hblank hwrites hletter
      have hpush : m.assembly.pushConnector c = ⟨some (p.query w.pos), some c, false⟩ := by
        rw [hassembly]
        rfl
      have hstart := Progress.start hopening
      rw [hpush]
      simpa using hstart

/-- A window that is read as `q` holds an expression with that tree. -/
def Derives (w : Window) (q : Query) : Prop :=
  ∃ e : Expression, e.WellFormed ∧ e.bytes = w.rest ∧ e.query w.pos = q

/-- A group is taken, if windows that are shorter hold what is read of them. -/
theorem Reached.readGroup {depth opening : Nat} (h : Reached w text m)
    (hstate : m.state = .group opening)
    (hnested : ∀ (v : Window) (clauses : Nat), v.rest.length < m.window.rest.length →
      ∀ inner count, readWindow limits (depth + 1) v clauses = .ok (inner, count) →
        Derives v inner)
    (hnext : m.step limits depth b = .ok next) : ∃ more, Reached w (text ++ more) next := by
  have hprogress := h.progress
  have htakes := h.takes
  rw [hstate] at hprogress
  cases hprogress with
  | @group front _ hopening =>
    rw [step_group limits depth b hstate] at hnext
    split at hnext
    · cases hnext
    split at hnext
    · cases hnext
    · next inside hclosing =>
      split at hnext
      · cases hnext
      · next inner count hread =>
        cases hnext
        have hlt := Grouping.closing?_lt hclosing
        obtain ⟨e, he, hbytes, rfl⟩ := hnested _ _
          (by rw [List.length_take]; omega) inner count hread
        obtain ⟨-, hbyte⟩ := Grouping.balanced_of_closing? hclosing
        obtain ⟨n, hn⟩ := (m.window.skip (inside + 1)).takes_spaces
        have hinside : m.window.Takes (e.bytes ++ [Byte.closeParen])
            (m.window.skip (inside + 1)) := by
          have htake : m.window.rest.take (inside + 1) = e.bytes ++ [Byte.closeParen] := by
            rw [hbytes, List.take_add_one, hbyte]
            rfl
          exact htake ▸ m.window.takes_skip (inside + 1)
        obtain ⟨p, hp, hpbytes, hassembly, hends⟩ := Opening.complete
          (.group e.before e.phrase e.behind) hopening he trivial (.inl trivial)
        refine ⟨e.bytes ++ [Byte.closeParen] ++ Byte.spaces n,
          htakes.trans (hinside.trans hn), ?_⟩
        have hconnector : Progress w.pos (m.window.skip (inside + 1)).skipSpaces
            (p.bytes ++ Byte.spaces n) .connector ⟨some (p.query w.pos), none, false⟩ :=
          .connector hp fun h => (hends h).elim
        have hpos : m.window.pos = w.pos + front.length + 1 := by
          rw [htakes.pos_eq, List.length_append]
          rfl
        rw [← hassembly, hpbytes] at hconnector
        simp only [Expression.query, hpos]
        simpa [Phrase.bytes, Phrase.query, Expression.bytes] using hconnector

/-! ## Runs -/

/-- **Every step goes on with the phrase**, if the runs over contents of groups read
expressions. -/
theorem Reached.stepWith {depth : Nat} (h : Reached w text m)
    (hb : m.window.peek? = some b)
    (hnested : ∀ (v : Window) (clauses : Nat), v.rest.length < m.window.rest.length →
      ∀ inner count, readWindow limits (depth + 1) v clauses = .ok (inner, count) →
        Derives v inner)
    (hnext : m.step limits depth b = .ok next) : ∃ more, Reached w (text ++ more) next := by
  cases hstate : m.state with
  | group opening => exact h.readGroup hstate hnested hnext
  | start =>
      rw [step_start hstate] at hnext
      exact h.begin hb hstate hnext
  | key start letters =>
      rw [step_key hstate] at hnext
      exact h.continueKey hb hstate hnext
  | subject s =>
      rw [step_subject hstate] at hnext
      exact h.readOperator hstate hnext
  | call k =>
      rw [step_call hstate] at hnext
      exact h.readCall hstate hnext
  | operand s o =>
      rw [step_operand hstate] at hnext
      exact h.readOperand hstate hnext
  | connector =>
      rw [step_connector hstate] at hnext
      exact h.readConnector hb hstate hnext

/-- A window without blanks in front holds a phrase with that tree. -/
def HoldsPhrase (w : Window) (q : Query) : Prop :=
  ∃ p gap, Phrase.WellFormed p ∧ w.rest = p.bytes ++ Byte.spaces gap ∧ p.query w.pos = q

/-- A window holds an expression if a phrase stands behind its first blanks. -/
theorem HoldsPhrase.derives {v : Window} {q : Query} (h : HoldsPhrase v.skipSpaces q) :
    Derives v q := by
  obtain ⟨n, hn⟩ := v.takes_spaces
  obtain ⟨p, gap, hp, hbytes, rfl⟩ := h
  refine ⟨⟨n, p, gap⟩, hp, ?_, ?_⟩
  · rw [Expression.bytes, hn.rest_eq, hbytes, List.append_assoc]
  · rw [Expression.query, hn.pos_eq, Window.length_spaces]

/-- At the end of its window a machine has read a whole phrase, or fails. -/
theorem Reached.finish {q : Query} {count : Nat} (h : Reached w text m)
    (hend : m.window.peek? = none) (hfinish : m.finish = .ok (q, count)) :
    HoldsPhrase w q := by
  have hprogress := h.progress
  unfold Machine.finish at hfinish
  split at hfinish
  · next hstate =>
    rw [hstate] at hprogress
    have hrest := h.takes.rest_eq
    rw [Window.peek?_eq_none_iff.mp hend, List.append_nil] at hrest
    generalize hassembly : m.assembly = a at hprogress
    cases hprogress with
    | @connector p gap hp hvalue =>
      rw [hassembly] at hfinish
      cases hfinish
      exact ⟨p, gap, hp, hrest, rfl⟩
  · cases hfinish
  · cases hfinish

/-- From any progress on, what a run reads completes the phrase. -/
theorem holdsPhrase_of_run (depth : Nat) (m : Machine) :
    ∀ w text, Reached w text m →
      ∀ q count, run limits depth m = .ok (q, count) → HoldsPhrase w q := by
  refine run_induction (motive := fun _ m r => ∀ w text, Reached w text m →
    ∀ q count, r = .ok (q, count) → HoldsPhrase w q) ?_ ?_ ?_ depth m
  · intro depth m hend w text h q count hfinish
    exact h.finish hend hfinish
  · intro depth m b e _ _ _ w text _ q count herror
    cases herror
  · intro depth m b next hb hnested hnext ih w text h q count hok
    obtain ⟨more, hmore⟩ := h.stepWith hb (fun v clauses hv inner count hread =>
      (hnested v clauses hv _ _ (reached_start v clauses) inner count hread).derives) hnext
    exact ih w _ hmore q count hok

/-- **A window that is read is an expression**, under any limits, and the query is its
tree. -/
theorem derives_of_readWindow {depth clauses count : Nat} {q : Query} {v : Window}
    (h : readWindow limits depth v clauses = .ok (q, count)) : Derives v q :=
  (holdsPhrase_of_run depth _ _ _ (reached_start v clauses) q count h).derives

/-- **Every step goes on with the phrase.** -/
theorem Reached.step {depth : Nat} (h : Reached w text m) (hb : m.window.peek? = some b)
    (hnext : m.step limits depth b = .ok next) : ∃ more, Reached w (text ++ more) next :=
  h.stepWith hb (fun _ _ _ _ _ hread => derives_of_readWindow hread) hnext

end Machine

end RecordFilter
