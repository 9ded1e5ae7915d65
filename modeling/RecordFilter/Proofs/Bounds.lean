import RecordFilter.Proofs.RoundTrip

/-!
# What is read is well-formed and bounded

A query that is read has names of letters and finite decimals only, nests to the left, and
keeps the limits that it was read under.  The number of its clauses bounds its height too,
whatever its shape is; so a walk down a query that was read never goes deeper than the limit
on clauses.

* `within_of_parseWith` — a query that is read keeps the limits;
* `bounded_of_parseWith` — all that is known of its shape and size.
-/

namespace RecordFilter

/-- A query that is read is not deeper and has no more clauses than the limits allow. -/
theorem within_of_parseWith {limits : Limits} {input : List UInt8} {q : Query}
    (h : parseWith limits input = .ok q) :
    q.depth ≤ limits.depth.toNat ∧ q.clauseCount ≤ limits.clauses.toNat := by
  obtain ⟨e, he, rfl, rfl⟩ := derives_of_parseWith h
  have hlength : e.bytes.length ≤ limits.inputLength.toNat := by
    refine Nat.le_of_not_lt fun hlong => ?_
    cases h.symm.trans (if_pos hlong)
  have hparse := h.symm.trans (parseWith_expression he hlength)
  cases hexcess : Site.excess? limits 0 (e.sites 0 0) with
  | none => exact Expression.excess?_eq_none_iff.mp hexcess
  | some error =>
      rw [hexcess] at hparse
      cases hparse

/-- **What is read is well-formed and bounded.**  Its names are runs of letters and its
decimals finite, no right side is itself joined, and its depth and the number of its clauses
keep the limits.  The number of clauses also bounds the height. -/
theorem bounded_of_parseWith {limits : Limits} {input : List UInt8} {q : Query}
    (h : parseWith limits input = .ok q) :
    q.WellFormed ∧ q.LeftNested ∧ q.depth ≤ limits.depth.toNat ∧
      q.clauseCount ≤ limits.clauses.toNat ∧ q.height ≤ q.clauseCount := by
  obtain ⟨hwell, hleft⟩ := shape_of_parseWith h
  obtain ⟨hdepth, hclauses⟩ := within_of_parseWith h
  exact ⟨hwell, hleft, hdepth, hclauses, q.height_le_clauseCount⟩

/-- The group `(a==1)` keeps limits of one layer and two clauses, and is two nodes high. -/
theorem bounded_of_parseWith_smallGroup :
    let q := Expression.smallGroup.query 0
    parseWith ⟨6, 1, 2⟩ Expression.smallGroup.bytes = .ok q ∧
      q.WellFormed ∧ q.LeftNested ∧ q.depth ≤ 1 ∧ q.clauseCount ≤ 2 ∧ q.height = 2 := by
  intro q
  have hread : parseWith ⟨6, 1, 2⟩ Expression.smallGroup.bytes = .ok q :=
    parseWith_expression Expression.smallGroup_wellFormed (by decide)
  obtain ⟨hwell, hleft, hdepth, hclauses, -⟩ := bounded_of_parseWith hread
  exact ⟨hread, hwell, hleft, hdepth, hclauses, rfl⟩

end RecordFilter
