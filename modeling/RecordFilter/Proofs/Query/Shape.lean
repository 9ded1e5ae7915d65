import RecordFilter.Query.Text
import RecordFilter.Proofs.Binary64.Nearest
import RecordFilter.Proofs.Grammar.Token
import RecordFilter.Proofs.Query.Measure

/-!
# The shapes of queries

A query that was read nests to the left only, and remembers where its keys stood.  A query
built by hand may nest on either side and stand nowhere.  Nesting a query to the left and
taking its spans away change neither its text nor what the limits measure.

* `leftNested_nestLeft`, `nestLeft_eq_self` — every query nests to the left in one way;
* `text_nestLeft`, `text_withoutSpans` — the text stays.
-/

namespace RecordFilter

/-! ## Well-formed queries -/

/-- A value that has a text of its own: a decimal has to be finite. -/
def Value.WellFormed : Value → Prop
  | decimal x => x.isFinite = true
  | _ => True

structure FunctionCall.WellFormed (c : FunctionCall) : Prop where
  key : IsName c.key.name
  name : IsName c.name
  args : ∀ v ∈ c.args, v.WellFormed

def Subject.WellFormed : Subject → Prop
  | key k => IsName k.name
  | call c => c.WellFormed

structure Comparison.WellFormed (c : Comparison) : Prop where
  subject : c.subject.WellFormed
  value : c.value.WellFormed

/-- All names are made of letters and all decimals are finite. -/
def Query.WellFormed : Query → Prop
  | comparison c => c.WellFormed
  | group inner => inner.WellFormed
  | logical lhs _ rhs => lhs.WellFormed ∧ rhs.WellFormed

/-! ## Spans -/

/-- The span of what stands nowhere. -/
def Span.nowhere : Span := ⟨0, 0⟩

def Key.withoutSpan (k : Key) : Key := { k with span := .nowhere }

def FunctionCall.withoutSpans (c : FunctionCall) : FunctionCall :=
  { c with key := c.key.withoutSpan, span := .nowhere }

def Subject.withoutSpans : Subject → Subject
  | key k => .key k.withoutSpan
  | call c => .call c.withoutSpans

def Comparison.withoutSpans (c : Comparison) : Comparison :=
  { c with subject := c.subject.withoutSpans }

namespace Query

/-- A query without its spans.  Nothing else is lost. -/
def withoutSpans : Query → Query
  | comparison c => comparison c.withoutSpans
  | group inner => group inner.withoutSpans
  | logical lhs connector rhs => logical lhs.withoutSpans connector rhs.withoutSpans

theorem text_withoutSpans (q : Query) : q.withoutSpans.text = q.text := by
  induction q with
  | comparison c =>
      rw [withoutSpans, text_comparison, text_comparison]
      obtain ⟨subject, operator, value⟩ := c
      cases subject <;> rfl
  | group inner ih => rw [withoutSpans, text_group, text_group, ih]
  | logical lhs connector rhs ihl ihr =>
      rw [withoutSpans, text_logical, text_logical, ihl, ihr]

theorem depth_withoutSpans (q : Query) : q.withoutSpans.depth = q.depth := by
  induction q with
  | comparison c => rw [withoutSpans, depth_comparison, depth_comparison]
  | group inner ih => rw [withoutSpans, depth_group, depth_group, ih]
  | logical lhs connector rhs ihl ihr =>
      rw [withoutSpans, depth_logical, depth_logical, ihl, ihr]

theorem clauseCount_withoutSpans (q : Query) : q.withoutSpans.clauseCount = q.clauseCount := by
  induction q with
  | comparison c => rfl
  | group inner ih => rw [withoutSpans, clauseCount, clauseCount, ih]
  | logical lhs connector rhs ihl ihr =>
      rw [withoutSpans, clauseCount, clauseCount, ihl, ihr]

/-! ## Chains -/

/-- The query that folds a first clause and the clauses behind it to the left. -/
def ofChain (head : Query) (links : List (Connector × Query)) : Query :=
  links.foldl (fun lhs link => logical lhs link.1 link.2) head

/-- A query is the fold of its own clauses. -/
theorem ofChain_chain (q : Query) : ofChain q.chain.1 q.chain.2 = q := by
  induction q with
  | comparison c => rfl
  | group inner _ => rfl
  | logical lhs connector rhs ihl _ =>
      rw [chain_logical, ofChain, List.foldl_append]
      show logical (ofChain lhs.chain.1 lhs.chain.2) connector rhs = _
      rw [ihl]

/-- Queries with the same clauses in the same order are the same. -/
theorem eq_of_chain_eq {p q : Query} (h : p.chain = q.chain) : p = q := by
  rw [← ofChain_chain p, h, ofChain_chain]

/-- Taking the spans away takes them away from every clause. -/
theorem chain_withoutSpans (q : Query) :
    q.withoutSpans.chain = (q.chain.1.withoutSpans,
      q.chain.2.map fun link => (link.1, link.2.withoutSpans)) := by
  induction q with
  | comparison c => rfl
  | group inner _ => rfl
  | logical lhs connector rhs ihl _ =>
      rw [withoutSpans, chain_logical, chain_logical, ihl, List.map_append]
      rfl

/-! ## Nesting to the left -/

/-- Whether a query is joined from two. -/
def IsLogical : Query → Prop
  | logical .. => True
  | _ => False

/-- No right side is itself joined, at any level. -/
def LeftNested : Query → Prop
  | comparison _ => True
  | group inner => inner.LeftNested
  | logical lhs _ rhs => lhs.LeftNested ∧ rhs.LeftNested ∧ ¬rhs.IsLogical

/-- Puts `lhs` and a connector in front of a chain that nests to the left. -/
def joinLeft (lhs : Query) (connector : Connector) : Query → Query
  | logical l c r => logical (joinLeft lhs connector l) c r
  | clause => logical lhs connector clause

/-- A query with every chain nested to the left, at every level. -/
def nestLeft : Query → Query
  | comparison c => comparison c
  | group inner => group inner.nestLeft
  | logical lhs connector rhs => joinLeft lhs.nestLeft connector rhs.nestLeft

/-- Joining a single clause adds one link. -/
theorem joinLeft_of_not_isLogical {lhs rhs : Query} (connector : Connector)
    (h : ¬rhs.IsLogical) : joinLeft lhs connector rhs = logical lhs connector rhs := by
  cases rhs with
  | comparison c => rfl
  | group inner => rfl
  | logical l c r => exact absurd trivial h

/-- Joining keeps the nesting to the left. -/
theorem leftNested_joinLeft {lhs rhs : Query} (connector : Connector) (hl : lhs.LeftNested)
    (hr : rhs.LeftNested) : (joinLeft lhs connector rhs).LeftNested := by
  induction rhs with
  | comparison c => exact ⟨hl, hr, id⟩
  | group inner _ => exact ⟨hl, hr, id⟩
  | logical l c r ihl _ => exact ⟨ihl hr.1, hr.2⟩

/-- **Every query can be nested to the left.** -/
theorem leftNested_nestLeft (q : Query) : q.nestLeft.LeftNested := by
  induction q with
  | comparison c => trivial
  | group inner ih => exact ih
  | logical lhs connector rhs ihl ihr => exact leftNested_joinLeft connector ihl ihr

/-- A query that nests to the left stays as it is. -/
theorem nestLeft_eq_self {q : Query} (h : q.LeftNested) : q.nestLeft = q := by
  induction q with
  | comparison c => rfl
  | group inner ih => rw [nestLeft, ih h]
  | logical lhs connector rhs ihl ihr =>
      rw [nestLeft, ihl h.1, ihr h.2.1, joinLeft_of_not_isLogical connector h.2.2]

theorem wellFormed_joinLeft {lhs rhs : Query} (connector : Connector) (hl : lhs.WellFormed)
    (hr : rhs.WellFormed) : (joinLeft lhs connector rhs).WellFormed := by
  induction rhs with
  | comparison c => exact ⟨hl, hr⟩
  | group inner _ => exact ⟨hl, hr⟩
  | logical l c r ihl _ => exact ⟨ihl hr.1, hr.2⟩

/-- Nesting to the left keeps a query well-formed. -/
theorem wellFormed_nestLeft {q : Query} (h : q.WellFormed) : q.nestLeft.WellFormed := by
  induction q with
  | comparison c => exact h
  | group inner ih => exact ih h
  | logical lhs connector rhs ihl ihr => exact wellFormed_joinLeft connector (ihl h.1) (ihr h.2)

/-- A joined query is written as its two parts with the connector between them. -/
theorem text_joinLeft (lhs rhs : Query) (connector : Connector) :
    (joinLeft lhs connector rhs).text =
      lhs.text ++ (" " ++ connector.symbol ++ " " ++ rhs.text) := by
  induction rhs with
  | comparison c => exact text_logical _ _ _
  | group inner _ => exact text_logical _ _ _
  | logical l c r ihl _ =>
      rw [joinLeft, text_logical, ihl, text_logical]
      simp only [String.append_assoc]

/-- **Nesting to the left does not change the text.** -/
theorem text_nestLeft (q : Query) : q.nestLeft.text = q.text := by
  induction q with
  | comparison c => rfl
  | group inner ih => rw [nestLeft, text_group, text_group, ih]
  | logical lhs connector rhs ihl ihr => rw [nestLeft, text_joinLeft, text_logical, ihl, ihr]

theorem depth_joinLeft (lhs rhs : Query) (connector : Connector) :
    (joinLeft lhs connector rhs).depth = max lhs.depth rhs.depth := by
  induction rhs with
  | comparison c => exact depth_logical _ _ _
  | group inner _ => exact depth_logical _ _ _
  | logical l c r ihl _ => rw [joinLeft, depth_logical, ihl, depth_logical, Nat.max_assoc]

/-- Nesting to the left changes no depth. -/
theorem depth_nestLeft (q : Query) : q.nestLeft.depth = q.depth := by
  induction q with
  | comparison c => rfl
  | group inner ih => rw [nestLeft, depth_group, depth_group, ih]
  | logical lhs connector rhs ihl ihr => rw [nestLeft, depth_joinLeft, depth_logical, ihl, ihr]

theorem clauseCount_joinLeft (lhs rhs : Query) (connector : Connector) :
    (joinLeft lhs connector rhs).clauseCount = lhs.clauseCount + rhs.clauseCount := by
  induction rhs with
  | comparison c => rfl
  | group inner _ => rfl
  | logical l c r ihl _ => rw [joinLeft, clauseCount, ihl, clauseCount, Nat.add_assoc]

/-- Nesting to the left changes no number of clauses. -/
theorem clauseCount_nestLeft (q : Query) : q.nestLeft.clauseCount = q.clauseCount := by
  induction q with
  | comparison c => rfl
  | group inner ih => rw [nestLeft, clauseCount, clauseCount, ih]
  | logical lhs connector rhs ihl ihr =>
      rw [nestLeft, clauseCount_joinLeft, clauseCount, ihl, ihr]

end Query

end RecordFilter
