import RecordFilter.Proofs.Acceptance
import RecordFilter.Proofs.Query.Shape
import RecordFilter.Proofs.Respacing.Machine

/-!
# Joined expressions

Two expressions with a connector between them are one expression, whose clauses are those
of the first and then those of the second.  What follows an expression makes no difference
to how it is read; behind the connector the machine starts as in front of an input of its
own, and what it has in its assembly from before is only ever joined with what it reads.

* `Query.fuse` — the clauses of two queries in one chain;
* `Machine.behind`, `Reached.step_behind`, `run_behind` — a machine with an expression and a
  connector in front of all that it reads;
* `readWindow_joined` — the machine behind the connector;
* `parseWith_joined` — what is read from joined expressions, accepted or not.
-/

namespace RecordFilter

/-! ## The clauses of joined queries -/

namespace Query

/-- Joining two queries joins their clauses, with the connector between them. -/
theorem chain_joinLeft (lhs rhs : Query) (connector : Connector) :
    (joinLeft lhs connector rhs).chain =
      (lhs.chain.1, lhs.chain.2 ++ (connector, rhs.chain.1) :: rhs.chain.2) := by
  induction rhs with
  | comparison c => exact chain_logical _ _ _
  | group inner _ => exact chain_logical _ _ _
  | logical l c r ihl _ =>
      rw [joinLeft, chain_logical, ihl, chain_logical, List.append_assoc]
      rfl

/-- The left fold of the clauses of two queries, with a connector between them. -/
def fuse (lhs : Query) (c : Connector) (rhs : Query) : Query :=
  ofChain lhs.chain.1 (lhs.chain.2 ++ (c, rhs.chain.1) :: rhs.chain.2)

/-- Fusing two queries joins the second to the left of its own chain. -/
theorem fuse_eq_joinLeft (lhs : Query) (c : Connector) (rhs : Query) :
    fuse lhs c rhs = joinLeft lhs c rhs := by
  rw [← ofChain_chain (joinLeft lhs c rhs), chain_joinLeft]
  rfl

end Query

/-! ## An expression in front -/

variable {lhs : Query} {c : Connector}

namespace Assembly

/-- An assembly with an expression and a connector in front of all its clauses. -/
def behind (lhs : Query) (c : Connector) (a : Assembly) : Assembly :=
  match a.root with
  | none => { a with root := some lhs, pending := some c }
  | some q => { a with root := some (Query.joinLeft lhs c q) }

/-- The assembly can take a clause: it is empty, or a connector waits. -/
inductive Awaits : Assembly → Prop
  | empty : Awaits .empty
  | connector (q : Query) (d : Connector) : Awaits ⟨some q, some d, false⟩

/-- The assembly holds a whole query. -/
inductive Holds : Assembly → Prop
  | query (q : Query) : Holds ⟨some q, none, false⟩

/-- A clause that is awaited is pushed the same with more in front. -/
theorem Awaits.pushClause_behind {a : Assembly} {clause : Query} (h : a.Awaits)
    (hclause : ¬clause.IsLogical) :
    (a.behind lhs c).pushClause clause = (a.pushClause clause).behind lhs c := by
  cases h with
  | empty =>
      show (⟨some (.logical lhs c clause), none, false⟩ : Assembly) =
        ⟨some (Query.joinLeft lhs c clause), none, false⟩
      rw [Query.joinLeft_of_not_isLogical c hclause]
  | connector q d => rfl

/-- A connector behind a clause is pushed the same with more in front. -/
theorem Holds.pushConnector_behind {a : Assembly} (h : a.Holds) (d : Connector) :
    (a.behind lhs c).pushConnector d = (a.pushConnector d).behind lhs c := by
  cases h with
  | query q => rfl

/-- The tree that is held is joined to the tree in front. -/
theorem Holds.result?_behind {a : Assembly} (h : a.Holds) :
    (a.behind lhs c).result? = a.result?.map (Query.joinLeft lhs c) := by
  cases h with
  | query q => rfl

end Assembly

namespace Machine

variable {origin : Nat} {ahead w v : Window} {text : List UInt8} {state : State} {a : Assembly}
  {limits : Limits} {depth clauses : Nat} {m : Machine} {b : UInt8}

/-- A machine with an expression and a connector in front of all that it reads. -/
def behind (lhs : Query) (c : Connector) (m : Machine) : Machine :=
  { m with assembly := m.assembly.behind lhs c }

/-! ### What the assembly of a running machine can take -/

/-- Where a clause starts, one is awaited. -/
theorem awaits_of_opening {first : Option UInt8} (h : Opening origin first text a) :
    a.Awaits := by
  cases h with
  | nothing => exact .empty
  | connector _ _ _ _ => exact .connector _ _

/-- In front of a key a clause is awaited. -/
theorem BeforeLetter.awaits (h : BeforeLetter origin text a) : a.Awaits := by
  obtain ⟨b, -, hopening⟩ := h
  exact awaits_of_opening hopening

/-- Between clauses the assembly holds a query, and otherwise it can take a clause. -/
theorem Progress.assembly (h : Progress origin ahead text state a) :
    (state = .connector → a.Holds) ∧ (state ≠ .connector → a.Awaits) := by
  cases h with
  | start h => exact ⟨State.noConfusion, fun _ => awaits_of_opening h⟩
  | key h _ _ => exact ⟨State.noConfusion, fun _ => h.awaits⟩
  | subject h _ => exact ⟨State.noConfusion, fun _ => h.awaits⟩
  | call h _ => exact ⟨State.noConfusion, fun _ => h.awaits⟩
  | group h => exact ⟨State.noConfusion, fun _ => awaits_of_opening h⟩
  | operand h _ => exact ⟨State.noConfusion, fun _ => h.awaits⟩
  | connector _ _ => exact ⟨fun _ => .query _, fun h => absurd rfl h⟩

/-! ### Steps and runs behind an expression -/

/-- A clause begins the same with more in front. -/
theorem begin_behind : (m.behind lhs c).begin limits b =
    (m.begin limits b).map (behind lhs c) := by
  unfold begin behind
  dsimp only
  split
  · split <;> rfl
  split
  · split <;> rfl
  split <;> rfl

/-- A key goes on the same with more in front. -/
theorem continueKey_behind {start : Nat} {letters : List UInt8} :
    (m.behind lhs c).continueKey start letters b =
      (m.continueKey start letters b).map (behind lhs c) := by
  unfold continueKey
  split
  · rfl
  split
  · rfl
  split
  · rfl
  split <;> rfl

/-- An operator is read the same with more in front. -/
theorem readOperator_behind (s : Subject) :
    (m.behind lhs c).readOperator s = (m.readOperator s).map (behind lhs c) := by
  unfold readOperator behind
  dsimp only
  split <;> rfl

/-- A call is read the same with more in front. -/
theorem readCall_behind (k : Key) :
    (m.behind lhs c).readCall k = (m.readCall k).map (behind lhs c) := by
  unfold readCall behind
  dsimp only
  split <;> rfl

/-- A value is read the same with more in front, where a clause is awaited. -/
theorem readOperand_behind (h : m.assembly.Awaits) (s : Subject) (o : Operator) :
    (m.behind lhs c).readOperand s o = (m.readOperand s o).map (behind lhs c) := by
  unfold readOperand behind
  dsimp only
  split
  · rfl
  · next value after _ =>
    have hclause : ¬(Query.comparison ⟨s, o, value⟩).IsLogical := id
    rw [h.pushClause_behind hclause]
    rfl

/-- A connector is read the same with more in front, where a clause is held. -/
theorem readConnector_behind (h : m.assembly.Holds) :
    (m.behind lhs c).readConnector = m.readConnector.map (behind lhs c) := by
  unfold readConnector behind
  dsimp only
  split
  · rfl
  · rw [h.pushConnector_behind]
    rfl

/-- A group is read the same with more in front: its contents are read by a machine of their
own, and the group is one clause. -/
theorem readGroup_behind {opening : Nat} (h : m.assembly.Awaits)
    (hstate : m.state = .group opening) :
    (m.behind lhs c).step limits depth b = (m.step limits depth b).map (behind lhs c) := by
  have hbehind : (m.behind lhs c).state = .group opening := hstate
  rw [step_group limits depth b hstate, step_group limits depth b hbehind]
  unfold behind
  dsimp only
  split
  · rfl
  split
  · rfl
  split
  · rfl
  · next inner clauses _ =>
    have hclause : ¬(Query.group inner).IsLogical := id
    rw [h.pushClause_behind hclause]
    rfl

/-- **A step does the same behind an expression.** -/
theorem Reached.step_behind (h : Reached w text m) :
    (m.behind lhs c).step limits depth b = (m.step limits depth b).map (behind lhs c) := by
  have hassembly := h.progress.assembly
  have hsame : (m.behind lhs c).state = m.state := rfl
  cases hstate : m.state with
  | start => rw [step_start (hsame.trans hstate), step_start hstate, begin_behind]
  | key start letters => rw [step_key (hsame.trans hstate), step_key hstate, continueKey_behind]
  | subject s => rw [step_subject (hsame.trans hstate), step_subject hstate, readOperator_behind]
  | call k => rw [step_call (hsame.trans hstate), step_call hstate, readCall_behind]
  | group opening =>
      exact readGroup_behind (hassembly.2 fun heq => by rw [hstate] at heq; cases heq) hstate
  | operand s o =>
      rw [step_operand (hsame.trans hstate), step_operand hstate, readOperand_behind]
      exact hassembly.2 fun heq => by rw [hstate] at heq; cases heq
  | connector =>
      rw [step_connector (hsame.trans hstate), step_connector hstate,
        readConnector_behind (hassembly.1 hstate)]

/-- A reading ends the same with more in front, and its tree is joined to the one in front. -/
theorem Reached.finish_behind (h : Reached w text m) :
    (m.behind lhs c).finish = m.finish.map fun r => (Query.joinLeft lhs c r.1, r.2) := by
  have hassembly := h.progress.assembly
  unfold Machine.finish behind
  dsimp only
  split
  · next hstate =>
    rw [(hassembly.1 hstate).result?_behind]
    cases m.assembly.result? <;> rfl
  · rfl
  · rfl

/-- **A run behind an expression joins what it reads with it.** -/
theorem run_behind (depth : Nat) (m : Machine) : ∀ w text, Reached w text m →
    run limits depth (m.behind lhs c) =
      (run limits depth m).map fun r => (Query.joinLeft lhs c r.1, r.2) := by
  refine run_induction (motive := fun depth m r => ∀ w text, Reached w text m →
    run limits depth (m.behind lhs c) = r.map fun r => (Query.joinLeft lhs c r.1, r.2))
    ?_ ?_ ?_ depth m
  · intro depth m hend w text h
    have hend' : (m.behind lhs c).window.peek? = none := hend
    rw [run_of_atEnd hend', h.finish_behind]
  · intro depth m b e hb _ hstep w text h
    have hb' : (m.behind lhs c).window.peek? = some b := hb
    show run limits depth (m.behind lhs c) = .error e
    apply run_of_error hb'
    rw [h.step_behind, hstep]
    rfl
  · intro depth m b next hb _ hstep ih w text h
    have hb' : (m.behind lhs c).window.peek? = some b := hb
    obtain ⟨more, hmore⟩ := h.step hb hstep
    rw [← ih w _ hmore]
    apply run_of_ok hb'
    rw [h.step_behind, hstep]
    rfl

/-! ## Behind an expression and a connector -/

/-- A connector with a blank behind it leaves the machine in front of the next clause, behind
what it has read. -/
theorem run_connector_blank {q : Query} {token : List UInt8} (htoken : c.Writes token)
    (htakes : w.Takes (token ++ [Byte.space]) v) :
    run limits depth ⟨w, .connector, ⟨some q, none, false⟩, clauses⟩ =
      run limits depth ((start v clauses).behind q c) := by
  obtain ⟨u, hconnector, hspace⟩ := htakes.split
  have hread : Connector.read w = .ok (c, u) := by
    refine Connector.read_of_takes hconnector htoken fun _ b hb => ?_
    obtain rfl := hspace.eq_of_peek? hb
    decide
  have hspaces : u.skipSpaces = v.skipSpaces := by
    rw [← Window.skipSpaces_skip_one hspace.peek?_cons]
    exact congrArg Window.skipSpaces hspace.skip_eq
  obtain ⟨b, more, hfirst, -⟩ := htoken.first
  rw [hfirst] at hconnector
  apply run_of_ok hconnector.peek?_cons
  rw [step_connector rfl, readConnector, hread]
  dsimp only
  rw [hspaces]
  rfl

/-- **Reading joined expressions** is reading the second one behind the first, if no limit
is exceeded in the first. -/
theorem readWindow_joined {e : Expression} {token : List UInt8} (he : e.WellFormed)
    (htoken : c.Writes token)
    (htakes : w.Takes (e.bytes ++ [Byte.space] ++ (token ++ [Byte.space])) v)
    (hexcess : Site.excess? limits clauses (e.sites w.pos depth) = none) :
    readWindow limits depth w clauses =
      (readWindow limits depth v (clauses + (e.sites w.pos depth).length)).map fun r =>
        (Query.joinLeft (e.query w.pos) c r.1, r.2) := by
  obtain ⟨t, htakes, hright⟩ := htakes.split
  obtain ⟨r, htakes, hblank⟩ := htakes.split
  obtain ⟨s, htakes, hbehind⟩ := htakes.split
  obtain ⟨u, hbefore, hphrase⟩ := htakes.split
  have hblanks : s.Takes (Byte.spaces (e.behind + 1)) t := by
    have htakes := hbehind.trans hblank
    rwa [Byte.spaces, ← List.replicate_succ'] at htakes
  have hstop : s.skipSpaces = t := by
    obtain ⟨b, more, hfirst, hb⟩ := htoken.first
    rw [hfirst] at hright
    apply hblanks.skipSpaces_eq
    rw [Window.Takes.peek?_cons hright]
    exact fun h => hb (Option.some.inj h)
  have hspaces : w.skipSpaces = u :=
    hbefore.skipSpaces_eq (Phrase.WellFormed.peek?_ne_space he hphrase)
  have hpos : u.pos = w.pos + e.before := by
    rw [hbefore.pos_eq, Window.length_spaces]
  have hover : RunsOver limits depth e.phrase := run_phrase he depth
  have hrun := hover ⟨u, .start, .empty, clauses⟩ s rfl hphrase
    fun _ => delimits_of_spaces hblanks (.inl (Nat.succ_pos _))
  dsimp only at hrun
  rw [hstop, Phrase.feed_empty he, hpos, ← Expression.sites, hexcess] at hrun
  dsimp only [Option.elim_none] at hrun
  rw [readWindow, start, hspaces, hrun, run_connector_blank htoken hright,
    run_behind depth _ _ _ (reached_start v _)]
  rfl

end Machine

/-- What stands in front of the second expression: the first, and a connector between
blanks. -/
def leading (a token : List UInt8) : List UInt8 :=
  a ++ [Byte.space] ++ (token ++ [Byte.space])

/-- Clauses that have begun before make no difference where the limits are out of reach. -/
theorem Limits.unlimited_matches {bound more : Nat} (h : bound + more < UInt64.size) :
    Limits.unlimited.Matches .unlimited bound more 0 := by
  have hmax : Limits.unlimited.clauses.toNat = UInt64.size - 1 := rfl
  refine ⟨fun n hn => ?_, fun n hn => Iff.rfl⟩
  rw [hmax]
  constructor <;> intro hmany <;> omega

/-- **Joined expressions have the clauses of both.**  Behind an accepted expression and a
connector an input is read as it is alone, that many bytes further on: its clauses follow
those of the expression, and if it is refused, the whole is refused for the same reason. -/
theorem parseWith_joined {a b token : List UInt8} {q : Query}
    (ha : parseWith .unlimited a = .ok q) (htoken : c.Writes token)
    (hlength : (leading a token ++ b).length < UInt64.size) :
    parseWith .unlimited (leading a token ++ b) =
      ((parseWith .unlimited b).map fun r =>
        q.fuse c (r.relocate (· + (leading a token).length))).mapError
          (SyntaxError.relocate (· + (leading a token).length)) := by
  obtain ⟨e, he, rfl, rfl⟩ := derives_of_parseWith ha
  have hmax : Limits.unlimited.inputLength.toNat = UInt64.size - 1 := rfl
  have hsites := e.length_sites_le 0 0
  have hsum : e.bytes.length + b.length ≤ (leading e.bytes token ++ b).length := by
    simp only [leading, List.length_append]
    omega
  have hexcess : Site.excess? .unlimited 0 (e.sites 0 0) = none :=
    Expression.excess?_unlimited (by omega)
  have htakes : Window.Takes ⟨0, leading e.bytes token ++ b⟩ (leading e.bytes token)
      ⟨(leading e.bytes token).length, b⟩ := ⟨rfl, (Nat.zero_add _).symm⟩
  generalize (leading e.bytes token).length = n at htakes ⊢
  have hmoved : Window.Respaced (· + n) ⟨0, b⟩ ⟨n, b⟩ :=
    ⟨(Nat.zero_add n).symm, Respaced.of_add n .outside 0 b⟩
  have hmatches : Limits.unlimited.Matches .unlimited b.length (e.sites 0 0).length 0 :=
    Limits.unlimited_matches (by omega)
  have hlike : Machine.RunsAlike (· + n) (e.sites 0 0).length
      (Machine.readWindow .unlimited 0 ⟨0, b⟩ 0)
      (Machine.readWindow .unlimited 0 ⟨n, b⟩ (0 + (e.sites 0 0).length)) :=
    Machine.readWindow_respaced hmatches hmoved (Nat.le_of_eq (Nat.zero_add _))
      (Nat.le_of_eq (Nat.zero_add _))
  rw [parseWith_eq_readWindow (by omega), parseWith_eq_readWindow (by omega),
    Machine.readWindow_joined he htoken htakes hexcess]
  rcases hlike.cases with ⟨error, hr, hr'⟩ | ⟨⟨r, count⟩, _, hr, hr', rfl⟩
  · rw [hr, hr']
    rfl
  · rw [hr, hr']
    exact congrArg Except.ok (Query.fuse_eq_joinLeft _ c _).symm

/-- The clauses of `(a==1)` and of itself, joined by `And`. -/
theorem parseWith_joined_smallGroup :
    let a := Expression.smallGroup.bytes
    let token : List UInt8 := [0x41, 0x6E, 0x64]
    parseWith .unlimited a = .ok (Expression.smallGroup.query 0) ∧
      Connector.and.Writes token ∧ (leading a token ++ a).length < UInt64.size ∧
      parseWith .unlimited (leading a token ++ a) =
        .ok (.logical (Expression.smallGroup.query 0) .and (Expression.smallGroup.query 11)) := by
  intro a token
  have ha : parseWith .unlimited a = .ok (Expression.smallGroup.query 0) :=
    parseWith_expression Expression.smallGroup_wellFormed (by decide)
  have htoken : Connector.and.Writes token := .inr (by decide)
  have hlength : (leading a token ++ a).length < UInt64.size := by decide
  refine ⟨ha, htoken, hlength, ?_⟩
  rw [parseWith_joined ha htoken hlength, ha]
  rfl

end RecordFilter
