import RecordFilter.Proofs.Joining

/-!
# What an assembly makes of a stream

An assembly takes clauses and connectors in any order.  A stream has the shape of a query if
it is a clause, and then connectors with a clause behind each.  Where a stream leaves this
shape the assembly is spoilt; it may still be given a new root by what comes later, but never
the shape back.

`Assembled` says, for every stream, what the assembly holds behind it.  One more event leads
from each of its four cases into one of them, and so all streams are covered.

* `assembled_ofEvents` — the assembly behind any stream;
* `awaitsClause_push` — only the last event tells whether a clause is awaited;
* `ofEvents_leftFold` — which streams give a query, and which query.
-/

namespace RecordFilter.Assembly

/-- What an assembly is fed with. -/
inductive Event where
  | clause (q : Query)
  | connector (c : Connector)

/-- The assembly after one more event. -/
def push (a : Assembly) : Event → Assembly
  | .clause q => a.pushClause q
  | .connector c => a.pushConnector c

/-- The assembly of a stream, from its first event to its last. -/
def ofEvents (events : List Event) : Assembly := events.foldl push empty

/-- The events of connectors with a clause behind each. -/
def linkEvents (links : List (Connector × Query)) : List Event :=
  links.flatMap fun link => [.connector link.1, .clause link.2]

/-- The streams of the shape of a query: a clause, and connectors with a clause behind each. -/
def stream (first : Query) (links : List (Connector × Query)) : List Event :=
  .clause first :: linkEvents links

/-- The stream can be continued to the shape of a query. -/
def Begins (events : List Event) : Prop :=
  ∃ more first links, events ++ more = stream first links

variable {events front more : List Event} {first q : Query}
  {links : List (Connector × Query)} {a : Assembly} {c d : Connector}

/-- One more event is pushed onto what the others made. -/
theorem ofEvents_concat (events : List Event) (e : Event) :
    ofEvents (events ++ [e]) = (ofEvents events).push e := by
  rw [ofEvents, List.foldl_append]
  rfl

/-! ## Streams and their beginnings -/

/-- A connector and the clause behind it go on a stream. -/
theorem stream_concat (first : Query) (links : List (Connector × Query)) (c : Connector)
    (q : Query) :
    stream first links ++ [.connector c, .clause q] = stream first (links ++ [(c, q)]) := by
  simp [stream, linkEvents]

/-- A link at the end of a chain is the last to be folded in. -/
theorem ofChain_concat (first : Query) (links : List (Connector × Query)) (c : Connector)
    (q : Query) : Query.ofChain first (links ++ [(c, q)]) =
      .logical (Query.ofChain first links) c q := by
  rw [Query.ofChain, List.foldl_append]
  rfl

/-- A whole stream begins a stream: itself. -/
theorem begins_stream (first : Query) (links : List (Connector × Query)) :
    Begins (stream first links) :=
  ⟨[], first, links, List.append_nil _⟩

/-- What begins a stream begins with what begins it. -/
theorem Begins.of_append (h : Begins (front ++ more)) : Begins front := by
  obtain ⟨rest, first, links, heq⟩ := h
  exact ⟨more ++ rest, first, links, by rw [← List.append_assoc, heq]⟩

/-- Links that go on as links go on with links. -/
theorem exists_links_of_append {all : List (Connector × Query)}
    (h : linkEvents links ++ more = linkEvents all) : ∃ rest, more = linkEvents rest := by
  induction links generalizing all with
  | nil => exact ⟨all, h⟩
  | cons link links ih =>
      cases all with
      | nil => cases h
      | cons other all =>
          simp only [linkEvents, List.flatMap_cons, List.cons_append, List.nil_append,
            List.cons.injEq] at h
          exact ih h.2.2

/-- The events of links tell the links. -/
theorem linkEvents_inj {all : List (Connector × Query)}
    (h : linkEvents links = linkEvents all) : links = all := by
  induction links generalizing all with
  | nil =>
      cases all with
      | nil => rfl
      | cons => cases h
  | cons link links ih =>
      cases all with
      | nil => cases h
      | cons other all =>
          simp only [linkEvents, List.flatMap_cons, List.cons_append, List.nil_append,
            List.cons.injEq, Event.connector.injEq, Event.clause.injEq] at h
          obtain ⟨hconnector, hclause, htail⟩ := h
          rw [Prod.ext hconnector hclause, ih htail]

/-- A stream has one first clause and one list of links. -/
theorem stream_inj {other : Query} {all : List (Connector × Query)}
    (h : stream first links = stream other all) : first = other ∧ links = all := by
  obtain ⟨hfirst, hlinks⟩ := List.cons.inj h
  cases hfirst
  exact ⟨rfl, linkEvents_inj hlinks⟩

/-- Behind a stream of the shape only links keep the shape. -/
theorem exists_links_of_begins (h : Begins (stream first links ++ more)) :
    ∃ rest behind, more ++ rest = linkEvents behind := by
  obtain ⟨rest, other, all, heq⟩ := h
  rw [List.append_assoc] at heq
  obtain ⟨behind, hbehind⟩ := exists_links_of_append (List.cons.inj heq).2
  exact ⟨rest, behind, hbehind⟩

/-- No stream starts with a connector. -/
theorem not_begins_connector (c : Connector) : ¬Begins [.connector c] := by
  rintro ⟨more, first, links, heq⟩
  cases heq

/-- No stream has two clauses next to each other. -/
theorem not_begins_adjacent : ¬Begins (stream first links ++ [.clause q]) := by
  intro h
  obtain ⟨rest, behind, heq⟩ := exists_links_of_begins h
  cases behind <;> cases heq

/-- No stream has two connectors next to each other. -/
theorem not_begins_doubled :
    ¬Begins (stream first links ++ [.connector c] ++ [.connector d]) := by
  intro h
  rw [List.append_assoc] at h
  obtain ⟨rest, behind, heq⟩ := exists_links_of_begins h
  cases behind <;> cases heq

/-! ## The assembly behind a stream -/

/-- What the assembly behind a stream holds: nothing, or the fold of a stream of the shape, or
such a fold and a connector.  Behind any other stream it is spoilt. -/
inductive Assembled : List Event → Assembly → Prop
  | empty : Assembled [] .empty
  | whole (first : Query) (links : List (Connector × Query)) :
      Assembled (stream first links) ⟨some (Query.ofChain first links), none, false⟩
  | continued (first : Query) (links : List (Connector × Query)) (c : Connector) :
      Assembled (stream first links ++ [.connector c])
        ⟨some (Query.ofChain first links), some c, false⟩
  | spoilt {events : List Event} {a : Assembly} (hshape : ¬Begins events)
      (hmalformed : a.malformed = true) : Assembled events a

/-- What is spoilt stays so. -/
theorem malformed_push (h : a.malformed = true) (e : Event) : (a.push e).malformed = true := by
  cases e with
  | clause q =>
      simp only [push, pushClause]
      split <;> simp [h]
  | connector c => simp [push, pushConnector, h]

/-- **One more event.** -/
theorem Assembled.push (h : Assembled events a) (e : Event) :
    Assembled (events ++ [e]) (a.push e) := by
  cases h with
  | empty =>
      cases e with
      | clause q => exact .whole q []
      | connector c => exact .spoilt (not_begins_connector c) rfl
  | whole first links =>
      cases e with
      | clause q => exact .spoilt not_begins_adjacent rfl
      | connector c => exact .continued first links c
  | continued first links c =>
      cases e with
      | clause q =>
          have hwhole := Assembled.whole first (links ++ [(c, q)])
          rw [← stream_concat, ofChain_concat] at hwhole
          rw [List.append_assoc]
          exact hwhole
      | connector d => exact .spoilt not_begins_doubled rfl
  | spoilt hshape hmalformed =>
      exact .spoilt (fun hbegins => hshape hbegins.of_append) (malformed_push hmalformed e)

/-- A run of events. -/
theorem Assembled.run (h : Assembled events a) (more : List Event) :
    Assembled (events ++ more) (more.foldl Assembly.push a) := by
  induction more generalizing events a with
  | nil =>
      rw [List.append_nil]
      exact h
  | cons e more ih =>
      rw [List.append_cons]
      exact ih (h.push e)

/-- **The assembly behind any stream.** -/
theorem assembled_ofEvents (events : List Event) : Assembled events (ofEvents events) :=
  Assembled.empty.run events

/-- Behind a connector at the very start the assembly has a root again, and is spoilt. -/
example (c : Connector) (p q : Query) :
    ofEvents [.connector c, .clause p, .clause q] = ⟨some q, none, true⟩ := rfl

/-- Only a stream of the shape gives a query, and the query is its left fold. -/
theorem Assembled.result?_eq_some_iff (h : Assembled events a) :
    a.result? = some q ↔
      ∃ first links, events = stream first links ∧ q = Query.ofChain first links := by
  cases h with
  | empty =>
      constructor
      · intro h
        cases h
      · rintro ⟨first, links, hstream, -⟩
        cases hstream
  | whole first links =>
      constructor
      · intro h
        exact ⟨first, links, rfl, (Option.some.inj h).symm⟩
      · rintro ⟨other, all, hstream, rfl⟩
        obtain ⟨rfl, rfl⟩ := stream_inj hstream
        rfl
  | continued first links c =>
      constructor
      · intro h
        cases h
      · rintro ⟨other, all, hstream, -⟩
        obtain ⟨rest, hrest⟩ := exists_links_of_append (List.cons.inj hstream).2
        cases rest <;> cases hrest
  | spoilt hshape hmalformed =>
      constructor
      · intro h
        rw [result?, if_pos (by rw [hmalformed]; rfl)] at h
        cases h
      · rintro ⟨first, links, rfl, -⟩
        exact absurd (begins_stream first links) hshape

/-- Whatever was before, a clause is awaited behind a connector and only there. -/
theorem awaitsClause_push (a : Assembly) (e : Event) :
    (a.push e).awaitsClause = true ↔ ∃ c, e = .connector c := by
  cases e with
  | clause q =>
      simp only [push, pushClause, awaitsClause]
      split <;> simp_all
  | connector c => simp [push, pushConnector, awaitsClause]

/-- **What an assembly makes of any stream.**  It gives a query exactly if the stream has the
shape of one, and then the left fold of the stream.  It awaits a clause exactly if the last
event is a connector.  And behind a beginning that no stream of the shape has, no further
events make it give a query. -/
theorem ofEvents_leftFold (events : List Event) :
    (∀ q, (ofEvents events).result? = some q ↔
      ∃ first links, events = stream first links ∧ q = Query.ofChain first links) ∧
    ((ofEvents events).awaitsClause = true ↔
      ∃ front c, events = front ++ [.connector c]) ∧
    ((∃ front, front <+: events ∧ ¬Begins front) →
      ∀ more, (ofEvents (events ++ more)).result? = none) := by
  refine ⟨fun q => (assembled_ofEvents events).result?_eq_some_iff, ?_, ?_⟩
  · rcases List.eq_nil_or_concat events with rfl | ⟨front, e, rfl⟩
    · constructor
      · intro h
        cases h
      · rintro ⟨front, c, heq⟩
        exact absurd heq.symm (by simp)
    · rw [List.concat_eq_append, ofEvents_concat, awaitsClause_push]
      constructor
      · rintro ⟨c, rfl⟩
        exact ⟨front, c, rfl⟩
      · rintro ⟨other, c, heq⟩
        exact ⟨c, (List.cons.inj (List.append_inj' heq rfl).2).1⟩
  · rintro ⟨front, ⟨rest, rfl⟩, hshape⟩ more
    cases hresult : (ofEvents (front ++ rest ++ more)).result? with
    | none => rfl
    | some q =>
        obtain ⟨first, links, hstream, -⟩ :=
          (assembled_ofEvents _).result?_eq_some_iff.mp hresult
        have hbegins := begins_stream first links
        rw [← hstream, List.append_assoc] at hbegins
        exact absurd hbegins.of_append hshape

end RecordFilter.Assembly
