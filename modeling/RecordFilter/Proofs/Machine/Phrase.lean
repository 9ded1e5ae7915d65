import RecordFilter.Proofs.Grammar.First
import RecordFilter.Proofs.Grouping.Phrase
import RecordFilter.Proofs.Limits.Site
import RecordFilter.Proofs.Machine.Induction
import RecordFilter.Proofs.Machine.Step
import RecordFilter.Proofs.Reading.Call

/-!
# Running over a phrase

A machine in front of a phrase reads it to its end, and has then the tree of the phrase
in its assembly; unless a limit is exceeded at one of its sites, where it stops.  The
induction is on the phrase: a group is read by a machine of its own, and a joined phrase
by running over its left side, its connector and its right side.

* `run_phrase` — what a run over a phrase comes to;
* `readWindow_expression` — what reading the window of an expression comes to.
-/

namespace RecordFilter

/-- The assembly behind a phrase that starts at offset `start`. -/
def Phrase.feed (start : Nat) : Phrase → Assembly → Assembly
  | comparison c, a => a.pushClause (.comparison (c.tree start))
  | group before inner _, a => a.pushClause (.group (inner.query (start + 1 + before)))
  | joined lhs before connector token behind rhs, a =>
      rhs.feed (start + lhs.bytes.length + before + token.length + behind)
        ((lhs.feed start a).pushConnector connector)

/-- A clause is pushed as one. -/
theorem Phrase.feed_of_isClause {p : Phrase} (h : p.IsClause) (start : Nat) (a : Assembly) :
    p.feed start a = a.pushClause (p.query start) := by
  cases p with
  | comparison c => rfl
  | group before inner behind => rfl
  | joined lhs before connector token behind rhs => exact h.elim

/-- A whole phrase leaves its tree. -/
theorem Phrase.feed_empty {p : Phrase} (h : p.WellFormed) (start : Nat) :
    p.feed start .empty = ⟨some (p.query start), none, false⟩ := by
  induction p with
  | comparison c => rfl
  | group before inner behind _ => rfl
  | joined lhs before connector token behind rhs ihl _ =>
      rw [Phrase.feed, ihl h.1, Phrase.feed_of_isClause h.2.2.1]
      rfl

namespace Machine

variable {limits : Limits} {depth : Nat} {m : Machine} {after u : Window} {b : UInt8}

/-! ## Keys and subjects -/

/-- A letter starts a clause, if there may be one more. -/
theorem run_begin_letter (hstate : m.state = .start) (hb : m.window.peek? = some b)
    (hletter : Byte.isLetter b = true) :
    run limits depth m = (Site.fault? limits m.clauses ⟨m.window.pos, 0⟩).elim
      (run limits depth { m with
        window := m.window.skip 1
        state := .key m.window.pos [b]
        clauses := m.clauses + 1 }) .error := by
  have hopen : b ≠ Byte.openParen := (Byte.plain_of_isLetter hletter).2.1
  unfold Site.fault?
  by_cases hmany : limits.clauses.toNat < m.clauses + 1
  · rw [if_pos hmany]
    apply run_of_error hb
    rw [step_start hstate, begin, if_neg hopen, if_pos hletter]
    exact if_pos hmany
  · rw [if_neg hmany, if_neg (Nat.not_lt_zero _)]
    apply run_of_ok hb
    rw [step_start hstate, begin, if_neg hopen, if_pos hletter]
    exact if_neg hmany

/-- Letters go on with a key. -/
theorem run_letters {start : Nat} (letters more : List UInt8)
    (hstate : m.state = .key start letters) (htakes : m.window.Takes more u)
    (hmore : ∀ b ∈ more, Byte.isLetter b = true) :
    run limits depth m =
      run limits depth { m with window := u, state := .key start (more.reverse ++ letters) } := by
  induction more generalizing m letters with
  | nil =>
      rw [htakes.eq_of_nil rfl, List.reverse_nil, List.nil_append, ← hstate]
  | cons b more ih =>
      have hletter := hmore b List.mem_cons_self
      have hstep : m.step limits depth b = .ok { m with
          window := m.window.skip 1
          state := .key start (b :: letters) } := by
        rw [step_key hstate]
        exact if_pos hletter
      obtain ⟨v, hv, hrest⟩ := Window.Takes.split (s := [b]) htakes
      have hskip : m.window.skip 1 = v := hv.skip_eq
      rw [run_of_ok htakes.peek?_cons hstep,
        ih (b :: letters) rfl (hskip ▸ hrest)
          fun c hc => hmore c (List.mem_cons_of_mem b hc),
        List.reverse_cons, List.append_assoc]
      rfl

/-- A name starts a clause with a key. -/
theorem run_name {name : String} (hname : IsName name) (hstate : m.state = .start)
    (htakes : m.window.Takes (Utf8.encode name) u) :
    run limits depth m = (Site.fault? limits m.clauses ⟨m.window.pos, 0⟩).elim
      (run limits depth { m with
        window := u
        state := .key m.window.pos (Utf8.encode name).reverse
        clauses := m.clauses + 1 }) .error := by
  obtain ⟨b, more, hbytes⟩ := List.exists_cons_of_ne_nil hname.encode_ne_nil
  have hletters := hname.letters_encode
  rw [hbytes] at htakes hletters
  obtain ⟨v, hv, hrest⟩ := Window.Takes.split (s := [b]) htakes
  have hskip : m.window.skip 1 = v := hv.skip_eq
  rw [run_begin_letter hstate htakes.peek?_cons (hletters b List.mem_cons_self),
    run_letters [b] more rfl (hskip ▸ hrest)
      fun c hc => hletters c (List.mem_cons_of_mem b hc),
    hbytes, List.reverse_cons]

/-- A key ends at the blanks behind it, or at what stands there instead. -/
theorem run_key_end (name : String) {start gap : Nat}
    (hstate : m.state = .key start (Utf8.encode name).reverse)
    (hpos : m.window.pos = start + (Utf8.encode name).length)
    (htakes : m.window.Takes (Byte.spaces gap) after) (hnext : after.peek? = some b)
    (hspace : b ≠ Byte.space) (hdot : b ≠ Byte.dot) (hb : Byte.isLetter b = false) :
    run limits depth m = run limits depth { m with
      window := after
      state := .subject (.key (SubjectForm.keyAt name start)) } := by
  cases gap with
  | zero =>
      obtain rfl := htakes.eq_of_nil rfl
      apply run_of_ok hnext
      rw [step_key hstate, continueKey_end hpos hb]
      dsimp only
      rw [if_neg hspace, if_neg hdot]
  | succ gap =>
      obtain ⟨v, hv, hrest⟩ := Window.Takes.split (s := [Byte.space]) htakes
      have hskip : m.window.skip 1 = v := hv.skip_eq
      have hspaces : v.skipSpaces = after :=
        hrest.skipSpaces_eq (by rw [hnext]; exact fun h => hspace (Option.some.inj h))
      apply run_of_ok htakes.peek?_cons
      rw [step_key hstate, continueKey_end hpos (by decide)]
      dsimp only
      rw [if_pos rfl, hskip, hspaces]

/-- A point ends a key, and a function follows. -/
theorem run_call (name : String) {start gap behind : Nat} {function : CallForm}
    (hfunction : function.WellFormed)
    (hstate : m.state = .key start (Utf8.encode name).reverse)
    (hpos : m.window.pos = start + (Utf8.encode name).length)
    (htakes : m.window.Takes
      (Byte.dot :: (Byte.spaces gap ++ function.bytes) ++ Byte.spaces behind) after)
    (hnext : after.peek? ≠ some Byte.space) :
    run limits depth m = run limits depth { m with
      window := after
      state := .subject (.call (function.tree (SubjectForm.keyAt name start)
        (start + (Utf8.encode name).length + 1 + gap))) } := by
  have hdot := htakes.peek?_cons
  obtain ⟨v, hcall, hspaces⟩ := htakes.split
  obtain ⟨p, hp, hcall⟩ := Window.Takes.split (s := [Byte.dot]) hcall
  obtain ⟨u, hgap, hcall⟩ := hcall.split
  have hfirst : u.peek? ≠ some Byte.space := hfunction.peek?_ne_space hcall
  have hu : (m.window.skip 1).skipSpaces = u := by
    have hskip : m.window.skip 1 = p := hp.skip_eq
    rw [hskip, hgap.skipSpaces_eq hfirst]
  have hupos : u.pos = start + (Utf8.encode name).length + 1 + gap := by
    rw [hgap.pos_eq, hp.pos_eq, hpos, Window.length_spaces]
    rfl
  have hstep : m.step limits depth Byte.dot =
      .ok { m with window := u, state := .call (SubjectForm.keyAt name start) } := by
    rw [step_key hstate, continueKey_end hpos (by decide)]
    dsimp only
    rw [if_neg (by decide), if_pos rfl, hu]
  have hread : FunctionCall.read (SubjectForm.keyAt name start) u = .ok (_, v) :=
    FunctionCall.read_of_takes hfunction hcall
  rw [run_of_ok hdot hstep]
  obtain ⟨b, rest, hbytes, -⟩ := hfunction.first
  rw [hbytes] at hcall
  apply run_of_ok hcall.peek?_cons
  rw [step_call rfl, readCall, hread, hupos]
  dsimp only
  rw [hspaces.skipSpaces_eq hnext]

/-- A subject is read up to what follows its blanks. -/
theorem run_subject {s : SubjectForm} {gap : Nat} (hs : s.WellFormed)
    (hstate : m.state = .start)
    (htakes : m.window.Takes (s.bytes ++ Byte.spaces gap) after)
    (hnext : after.peek? = some b) (hspace : b ≠ Byte.space) (hdot : b ≠ Byte.dot)
    (hb : Byte.isLetter b = false) :
    run limits depth m = (Site.fault? limits m.clauses ⟨m.window.pos, 0⟩).elim
      (run limits depth
        ⟨after, .subject (s.tree m.window.pos), m.assembly, m.clauses + 1⟩) .error := by
  cases s with
  | key name =>
      obtain ⟨u, hname, hspaces⟩ := htakes.split
      rw [run_name hs hstate hname,
        run_key_end name rfl hname.pos_eq hspaces hnext hspace hdot hb]
      rfl
  | call name gap function =>
      rw [SubjectForm.bytes, List.append_assoc] at htakes
      obtain ⟨u, hname, hcall⟩ := htakes.split
      rw [run_name hs.1 hstate hname,
        run_call name hs.2 rfl hname.pos_eq hcall
          (by rw [hnext]; exact fun h => hspace (Option.some.inj h))]
      rfl

/-! ## Clauses -/

/-- An operator is read up to the value behind its blanks. -/
theorem run_operator {s : Subject} {o : Operator} {behind : Nat} {value : Value}
    {literal : List UInt8} (hwrites : value.Writes literal) (hstate : m.state = .subject s)
    (htakes : m.window.Takes (o.bytes ++ Byte.spaces behind) u)
    (hliteral : u.Takes literal after) :
    run limits depth m = run limits depth { m with window := u, state := .operand s o } := by
  obtain ⟨b, rest, hbytes, -⟩ := o.first
  obtain ⟨hspace, -, -⟩ := Literal.peek?_of_writes hwrites hliteral
  obtain ⟨v, hoperator, hspaces⟩ := htakes.split
  have hread : Operator.read m.window = .ok (o, v) :=
    Operator.read_of_literal hoperator hspaces hwrites hliteral
  rw [hbytes] at hoperator
  apply run_of_ok hoperator.peek?_cons
  rw [step_subject hstate, readOperator, hread]
  dsimp only
  rw [hspaces.skipSpaces_eq hspace]

/-- A comparison is read up to the delimiter behind its value. -/
theorem run_comparison {c : ComparisonForm} (hc : c.WellFormed) (hstate : m.state = .start)
    (htakes : m.window.Takes c.bytes after) (hafter : Literal.Delimits .operand after) :
    run limits depth m = (Site.fault? limits m.clauses ⟨m.window.pos, 0⟩).elim
      (run limits depth ⟨after.skipSpaces, .connector,
        m.assembly.pushClause (.comparison (c.tree m.window.pos)), m.clauses + 1⟩)
      .error := by
  obtain ⟨w, htakes, hliteral⟩ := htakes.split
  obtain ⟨v, htakes, hbehind⟩ := htakes.split
  obtain ⟨u, hsubject, hoperator⟩ := htakes.split
  obtain ⟨b, rest, hbytes, hspace, hdot, hletter⟩ := c.operator.first
  obtain ⟨d, more, hfirst, -⟩ := Literal.first_of_writes hc.value
  have hnext : u.peek? = some b := by
    rw [hbytes] at hoperator
    exact hoperator.peek?_cons
  have hread : Literal.read .operand w = .ok (c.value, after) :=
    Literal.read_eq_ok_iff.mpr ⟨c.literal, hliteral, hc.value, hafter⟩
  have hvalue : run limits depth ⟨w, .operand (c.subject.tree m.window.pos) c.operator,
      m.assembly, m.clauses + 1⟩ = run limits depth ⟨after.skipSpaces, .connector,
        m.assembly.pushClause (.comparison (c.tree m.window.pos)), m.clauses + 1⟩ := by
    rw [hfirst] at hliteral
    apply run_of_ok hliteral.peek?_cons
    rw [step_operand rfl, readOperand, hread]
    rfl
  rw [run_subject hc.subject hstate hsubject hnext hspace hdot hletter,
    run_operator hc.value rfl (hoperator.trans hbehind) hliteral, hvalue]

/-- A group is read by a machine of its own, if there may be one more clause and the group
is not too deep. -/
theorem run_group {content : List UInt8} (hstate : m.state = .start)
    (htakes : m.window.Takes (Byte.openParen :: (content ++ [Byte.closeParen])) after)
    (hcontent : Grouping.Balanced content) :
    run limits depth m = (Site.fault? limits m.clauses ⟨m.window.pos, depth + 1⟩).elim
      (match readWindow limits (depth + 1) ⟨m.window.pos + 1, content⟩ (m.clauses + 1) with
        | .error e => .error e
        | .ok (inner, clauses) => run limits depth ⟨after.skipSpaces, .connector,
            m.assembly.pushClause (.group inner), clauses⟩) .error := by
  obtain ⟨v, hopen, hrest⟩ := Window.Takes.split (s := [Byte.openParen])
    (t := content ++ [Byte.closeParen]) htakes
  have hskip : m.window.skip 1 = v := hopen.skip_eq
  have hpos : v.pos = m.window.pos + 1 := hopen.pos_eq
  have hbegin : m.step limits depth Byte.openParen = if limits.clauses.toNat < m.clauses + 1
      then .error ⟨.limitExceeded, m.window.pos, .clause, "fewer clauses (see max_clauses)"⟩
      else .ok ⟨v, .group m.window.pos, m.assembly, m.clauses + 1⟩ := by
    rw [step_start hstate, begin, if_pos rfl, hskip]
    rfl
  unfold Site.fault?
  by_cases hmany : limits.clauses.toNat < m.clauses + 1
  · rw [if_pos hmany] at hbegin ⊢
    exact run_of_error htakes.peek?_cons hbegin
  rw [if_neg hmany] at hbegin ⊢
  obtain ⟨b, more, hfirst⟩ : ∃ b more, content ++ [Byte.closeParen] = b :: more :=
    List.exists_cons_of_ne_nil (by simp)
  have hb : v.peek? = some b := Window.Takes.peek?_cons (hfirst ▸ hrest)
  have hgroup := @step_group_of_balanced limits depth
    ⟨v, .group m.window.pos, m.assembly, m.clauses + 1⟩ after b _ content rfl hrest hcontent
  dsimp only at hgroup
  rw [hpos] at hgroup
  rw [run_of_ok htakes.peek?_cons hbegin]
  by_cases hdeep : limits.depth.toNat < depth + 1
  · rw [if_pos hdeep] at hgroup ⊢
    exact run_of_error hb hgroup
  rw [if_neg hdeep] at hgroup ⊢
  dsimp only [Option.elim_none]
  split
  · next e hread =>
    rw [hread] at hgroup
    exact run_of_error hb hgroup
  · next inner clauses hread =>
    rw [hread] at hgroup
    exact run_of_ok hb hgroup

/-- A connector is read up to the clause behind its blanks. -/
theorem run_connector {c : Connector} {token : List UInt8} {behind : Nat} {clause : Phrase}
    (htoken : c.Writes token) (hclause : clause.WellFormed)
    (hword : Byte.spells c.word token = true → 0 < behind ∨ clause.IsGroup)
    (hstate : m.state = .connector)
    (htakes : m.window.Takes (token ++ Byte.spaces behind) u)
    (hright : u.Takes clause.bytes after) :
    run limits depth m = run limits depth { m with
      window := u
      state := .start
      assembly := m.assembly.pushConnector c } := by
  obtain ⟨v, hconnector, hspaces⟩ := htakes.split
  obtain ⟨b, more, hfirst, -⟩ := htoken.first
  have hread : Connector.read m.window = .ok (c, v) := by
    refine Connector.read_eq_ok_iff.mpr ⟨token, hconnector, htoken, ?_⟩
    intro hspells d hd
    cases behind with
    | succ behind =>
        obtain rfl := hspaces.eq_of_peek? hd
        decide
    | zero =>
        obtain rfl := hspaces.eq_of_nil rfl
        have hgroup := (hword hspells).resolve_left (Nat.lt_irrefl 0)
        obtain ⟨rest, hrest⟩ := Phrase.exists_of_isGroup hgroup
        rw [hrest] at hright
        obtain rfl := hright.eq_of_peek? hd
        decide
  rw [hfirst] at hconnector
  apply run_of_ok hconnector.peek?_cons
  rw [step_connector hstate, readConnector, hread]
  dsimp only
  rw [hspaces.skipSpaces_eq (hclause.peek?_ne_space hright)]

/-! ## Phrases -/

/-- A run over the phrase `p`, inside `depth` groups, stops at the first site that offends
or comes to its end with its tree. -/
def RunsOver (limits : Limits) (depth : Nat) (p : Phrase) : Prop :=
  ∀ (m : Machine) (after : Window), m.state = .start → m.window.Takes p.bytes after →
    (p.EndsInValue → Literal.Delimits .operand after) →
    run limits depth m =
      (Site.excess? limits m.clauses (p.sites m.window.pos depth)).elim
        (run limits depth ⟨after.skipSpaces, .connector, p.feed m.window.pos m.assembly,
          m.clauses + (p.sites m.window.pos depth).length⟩) .error

/-- A blank, or the end of the input, ends a value. -/
theorem delimits_of_spaces {w : Window} {n : Nat} (h : w.Takes (Byte.spaces n) after)
    (hn : 0 < n ∨ after.rest = []) : Literal.Delimits .operand w := by
  intro b hb
  cases n with
  | succ n =>
      obtain rfl : b = Byte.space := h.eq_of_peek? hb
      rfl
  | zero =>
      obtain rfl := h.eq_of_nil rfl
      rw [Window.peek?_eq_none_iff.mpr (hn.resolve_left (Nat.lt_irrefl 0))] at hb
      cases hb

/-- The window of an expression is read by running over its phrase. -/
theorem RunsOver.readWindow {e : Expression} {w : Window} (clauses : Nat)
    (h : RunsOver limits depth e.phrase) (he : e.WellFormed) (hw : w.rest = e.bytes) :
    readWindow limits depth w clauses =
      (Site.excess? limits clauses (e.sites w.pos depth)).elim
        (.ok (e.query w.pos, clauses + (e.sites w.pos depth).length)) .error := by
  have htakes : w.Takes e.bytes ⟨w.pos + e.bytes.length, []⟩ :=
    ⟨by rw [hw, List.append_nil], rfl⟩
  obtain ⟨v, htakes, hbehind⟩ := htakes.split
  obtain ⟨u, hbefore, hphrase⟩ := htakes.split
  have hspaces : w.skipSpaces = u :=
    hbefore.skipSpaces_eq (Phrase.WellFormed.peek?_ne_space he hphrase)
  have hstop : v.skipSpaces = ⟨w.pos + e.bytes.length, []⟩ :=
    hbehind.skipSpaces_eq (by intro heq; cases heq)
  have hrun := h ⟨u, .start, .empty, clauses⟩ v rfl hphrase
    fun _ => delimits_of_spaces hbehind (.inr rfl)
  dsimp only at hrun
  rw [hstop, Phrase.feed_empty he, hbefore.pos_eq, Window.length_spaces] at hrun
  rw [Machine.readWindow, start, hspaces, hrun]
  congr 1
  exact run_of_atEnd rfl

theorem elim_or {α β : Type} (first second : Option α) (otherwise : β) (f : α → β) :
    (first.or second).elim otherwise f = first.elim (second.elim otherwise f) f := by
  cases first <;> rfl

/-- **A run over a phrase.** -/
theorem run_phrase {p : Phrase} (hp : p.WellFormed) (depth : Nat) :
    RunsOver limits depth p := by
  induction p generalizing depth with
  | comparison c =>
      intro m after hstate htakes hafter
      rw [run_comparison hp hstate htakes (hafter trivial), Phrase.sites, Site.excess?,
        Site.excess?, Option.or_none]
      rfl
  | group before inner behind ih =>
      intro m after hstate htakes _
      have hinner : Expression.WellFormed ⟨before, inner, behind⟩ := hp
      have hread := RunsOver.readWindow (m.clauses + 1) (ih hp (depth + 1))
        (w := ⟨m.window.pos + 1, _⟩) hinner rfl
      rw [run_group hstate htakes hinner.balanced, hread, Phrase.sites, Site.excess?, elim_or]
      congr 1
      cases hexcess : Site.excess? limits (m.clauses + 1)
          (inner.sites (m.window.pos + 1 + before) (depth + 1)) with
      | some e =>
          rw [Expression.sites, hexcess]
          rfl
      | none =>
          rw [Expression.sites, hexcess, List.length_cons]
          dsimp only [Option.elim_none]
          rw [Nat.add_assoc, Nat.add_comm 1]
          rfl
  | joined lhs before connector token behind rhs ihl ihr =>
      intro m after hstate htakes hafter
      obtain ⟨hlhs, hrhs, -, htoken, hvalue, hword⟩ := hp
      obtain ⟨v, htakes, hright⟩ := htakes.split
      obtain ⟨u, htakes, hbehind⟩ := htakes.split
      obtain ⟨t, htakes, hconnector⟩ := htakes.split
      obtain ⟨s, hleft, hbefore⟩ := htakes.split
      have hspace : s.skipSpaces = t := by
        obtain ⟨d, more, hfirst, hd⟩ := htoken.first
        apply hbefore.skipSpaces_eq
        rw [hfirst] at hconnector
        rw [hconnector.peek?_cons]
        exact fun h => hd (Option.some.inj h)
      have hpos : v.pos =
          m.window.pos + lhs.bytes.length + before + token.length + behind := by
        rw [hbehind.pos_eq, hconnector.pos_eq, hbefore.pos_eq, hleft.pos_eq,
          Window.length_spaces, Window.length_spaces]
      have hblank : lhs.EndsInValue → Literal.Delimits .operand s := fun hends =>
        delimits_of_spaces hbefore (.inl (hvalue hends))
      rw [ihl hlhs depth m s hstate hleft hblank, hspace,
        run_connector htoken hrhs hword rfl (hconnector.trans hbehind) hright,
        ihr hrhs depth _ after rfl hright hafter, Phrase.sites, Phrase.feed,
        Site.excess?_append, elim_or, List.length_append, ← Nat.add_assoc, hpos]

/-- **What reading the window of an expression comes to**, under any limits. -/
theorem readWindow_expression {e : Expression} {w : Window} {clauses : Nat}
    (he : e.WellFormed) (hw : w.rest = e.bytes) (depth : Nat) :
    readWindow limits depth w clauses =
      (Site.excess? limits clauses (e.sites w.pos depth)).elim
        (.ok (e.query w.pos, clauses + (e.sites w.pos depth).length)) .error :=
  RunsOver.readWindow clauses (run_phrase he depth) he hw

end Machine

end RecordFilter
