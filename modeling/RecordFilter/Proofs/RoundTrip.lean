import RecordFilter.Proofs.Acceptance
import RecordFilter.Proofs.Query.Canonical
import RecordFilter.Proofs.Query.Equality

/-!
# Reading undoes writing

The text of a query is an expression of the grammar, so it is accepted within the limits
that the query keeps; what comes out is the query nested to the left.  A query that was read
nests to the left already, and is read back from its text as itself.

* `shape_of_parseWith` — what was read is well-formed and nests to the left;
* `parseWith_text` — what is written is read back.
-/

namespace RecordFilter

/-! ## The shape of what was read -/

/-- What a literal writes is well-formed. -/
theorem Value.Writes.wellFormed {v : Value} {literal : List UInt8} (h : v.Writes literal) :
    v.WellFormed := by
  cases h with
  | decimal negative hwhole hfraction hfinite => exact hfinite
  | integer => trivial
  | string => trivial
  | true => trivial
  | false => trivial

/-- The call of a well-formed form is well-formed. -/
theorem CallForm.WellFormed.tree {c : CallForm} (h : c.WellFormed) (key : Key)
    (hkey : IsName key.name) (start : Nat) : (c.tree key start).WellFormed := by
  refine ⟨hkey, h.name, ?_⟩
  intro v hv
  obtain ⟨a, ha, rfl⟩ := List.mem_map.mp hv
  exact Value.Writes.wellFormed (h.args a ha)

theorem SubjectForm.WellFormed.tree {s : SubjectForm} (h : s.WellFormed) (start : Nat) :
    (s.tree start).WellFormed := by
  cases s with
  | key name => exact h
  | call name gap function => exact h.2.tree (SubjectForm.keyAt name start) h.1 _

namespace Phrase

/-- The tree of a well-formed phrase is well-formed. -/
theorem wellFormed_query {p : Phrase} (h : p.WellFormed) (start : Nat) :
    (p.query start).WellFormed := by
  induction p generalizing start with
  | comparison c => exact ⟨SubjectForm.WellFormed.tree h.subject start, h.value.wellFormed⟩
  | group before inner behind ih => exact ih h _
  | joined lhs before connector token behind rhs ihl ihr => exact ⟨ihl h.1 _, ihr h.2.1 _⟩

/-- The tree of a phrase nests to the left, as phrases do. -/
theorem leftNested_query {p : Phrase} (h : p.WellFormed) (start : Nat) :
    (p.query start).LeftNested := by
  induction p generalizing start with
  | comparison c => trivial
  | group before inner behind ih => exact ih h _
  | joined lhs before connector token behind rhs ihl ihr =>
      refine ⟨ihl h.1 _, ihr h.2.1 _, ?_⟩
      have hclause := h.2.2.1
      cases rhs with
      | comparison c => exact id
      | group before inner behind => exact id
      | joined => exact hclause.elim

end Phrase

/-- What was read is well-formed and nests to the left. -/
theorem shape_of_parseWith {limits : Limits} {input : List UInt8} {q : Query}
    (h : parseWith limits input = .ok q) : q.WellFormed ∧ q.LeftNested := by
  obtain ⟨e, he, rfl, rfl⟩ := derives_of_parseWith h
  exact ⟨Phrase.wellFormed_query he _, Phrase.leftNested_query he _⟩

/-! ## Reading back -/

/-- The text of a query as an expression. -/
def Query.expression (q : Query) : Expression := ⟨0, q.nestLeft.phrase, 0⟩

/-- The expression of a query has the bytes of its text. -/
theorem Query.bytes_expression (q : Query) : q.expression.bytes = Utf8.encode q.text := by
  have hbytes : q.expression.bytes = q.nestLeft.phrase.bytes := List.append_nil _
  rw [hbytes, bytes_phrase, text_nestLeft]

/-- The expression of a well-formed query is well-formed, however it is nested. -/
theorem Query.wellFormed_expression {q : Query} (h : q.WellFormed) :
    q.expression.WellFormed :=
  wellFormed_phrase (wellFormed_nestLeft h) (leftNested_nestLeft q)

/-- **Reading undoes writing.**  The text of a well-formed query is read back within the
limits that the query keeps, as the query nested to the left, with every decimal bit for
bit; and it is the text of what was read.  A query that nests to the left is read back as
itself, and every query that was read does. -/
theorem parseWith_text (limits : Limits) :
    (∀ q : Query, q.WellFormed → (Utf8.encode q.text).length ≤ limits.inputLength.toNat →
      q.depth ≤ limits.depth.toNat → q.clauseCount ≤ limits.clauses.toNat →
      ∃ q' : Query, parseWith limits (Utf8.encode q.text) = .ok q' ∧
        q'.withoutSpans = q.nestLeft.withoutSpans ∧ q'.text = q.text ∧
        (q.LeftNested → (q' == q) = true)) ∧
    (∀ (input : List UInt8) (q : Query), parseWith limits input = .ok q →
      q.WellFormed ∧ q.LeftNested) := by
  refine ⟨?_, fun input q h => shape_of_parseWith h⟩
  intro q hq hlength hdepth hclauses
  have hspans : (q.expression.query 0).withoutSpans = q.nestLeft.withoutSpans :=
    q.nestLeft.withoutSpans_query_phrase (0 + 0)
  have hnone : Site.excess? limits 0 (q.expression.sites 0 0) = none := by
    refine Expression.excess?_eq_none_iff.mpr ⟨?_, ?_⟩
    · rw [← Query.depth_withoutSpans, hspans, Query.depth_withoutSpans, Query.depth_nestLeft]
      exact hdepth
    · rw [← Query.clauseCount_withoutSpans, hspans, Query.clauseCount_withoutSpans,
        Query.clauseCount_nestLeft]
      exact hclauses
  have hfits : q.expression.bytes.length ≤ limits.inputLength.toNat := by
    rw [Query.bytes_expression]
    exact hlength
  have hparse := parseWith_expression (Query.wellFormed_expression hq) hfits
  rw [hnone, Query.bytes_expression] at hparse
  refine ⟨q.expression.query 0, hparse, hspans, ?_, ?_⟩
  · rw [← Query.text_withoutSpans, hspans, Query.text_withoutSpans, Query.text_nestLeft]
  · intro hleft
    rw [Query.nestLeft_eq_self hleft] at hspans
    exact Query.beq_of_withoutSpans_eq hq hspans

/-- The query `a < -0.0 && (b == ")\"") || c.f(true) != -7`, nested to the right. -/
def Query.rightNested : Query :=
  .logical (.comparison ⟨.key ⟨"a", .nowhere⟩, .less, .decimal ⟨0x8000000000000000⟩⟩) .and
    (.logical (.group (.comparison ⟨.key ⟨"b", .nowhere⟩, .equals, .string ")\""⟩)) .or
      (.comparison ⟨.call ⟨⟨"c", .nowhere⟩, "f", [.boolean true], .nowhere⟩, .notEquals,
        .integer (-7)⟩))

theorem Query.wellFormed_rightNested : Query.rightNested.WellFormed := by
  have hzero : Binary64.isFinite ⟨0x8000000000000000⟩ = true := by decide
  refine ⟨⟨?_, hzero⟩, ⟨?_, trivial⟩, ⟨⟨by decide, by decide, ?_⟩, trivial⟩⟩
  · exact (by decide : IsName "a")
  · exact (by decide : IsName "b")
  · intro v hv
    rw [List.mem_singleton.mp hv]
    trivial

/-- The query is within the standard limits, so its text is read; nested to the left, it is
read back as itself. -/
theorem parseWith_text_rightNested :
    Query.rightNested.WellFormed ∧
      (∃ q' : Query, parseWith .standard (Utf8.encode Query.rightNested.text) = .ok q' ∧
        q'.withoutSpans = Query.rightNested.nestLeft.withoutSpans ∧
        q'.text = Query.rightNested.text ∧ q'.LeftNested) ∧
      ∃ q' : Query, parseWith .standard (Utf8.encode Query.rightNested.nestLeft.text) = .ok q' ∧
        (q' == Query.rightNested.nestLeft) = true := by
  have hwell := Query.wellFormed_rightNested
  have hlength : (Utf8.encode Query.rightNested.text).length ≤
      Limits.standard.inputLength.toNat := by
    rw [← Query.text_nestLeft, ← Query.bytes_phrase]
    decide +kernel
  have hdepth : Query.rightNested.depth ≤ Limits.standard.depth.toNat := by
    rw [Query.depth_eq_nesting]
    decide
  have hclauses : Query.rightNested.clauseCount ≤ Limits.standard.clauses.toNat := by decide
  obtain ⟨q, hread, hspans, htext, -⟩ :=
    (parseWith_text .standard).1 Query.rightNested hwell hlength hdepth hclauses
  obtain ⟨q', hread', -, -, hself⟩ :=
    (parseWith_text .standard).1 Query.rightNested.nestLeft (Query.wellFormed_nestLeft hwell)
      (by rw [Query.text_nestLeft]; exact hlength)
      (by rw [Query.depth_nestLeft]; exact hdepth)
      (by rw [Query.clauseCount_nestLeft]; exact hclauses)
  exact ⟨hwell, ⟨q, hread, hspans, htext, ((parseWith_text .standard).2 _ q hread).2⟩,
    q', hread', hself (Query.leftNested_nestLeft _)⟩

end RecordFilter
