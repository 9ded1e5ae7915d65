import RecordFilter.Parse
import RecordFilter.Proofs.Machine.Phrase
import RecordFilter.Proofs.Machine.Progress

/-!
# What is accepted

An input is accepted exactly if it is an expression of the grammar, and what comes out is
its tree with all its spans.  The limits can only refuse more.

* `parseWith_expression` — what an expression comes to under any limits;
* `derives_of_parseWith` — an input that is accepted under any limits is an expression;
* `parseWith_unlimited_eq_ok_iff` — under the greatest limits the grammar alone decides.
-/

namespace RecordFilter

/-- An input that is not too long is read as a window of its own. -/
theorem parseWith_eq_readWindow {limits : Limits} {input : List UInt8}
    (h : input.length ≤ limits.inputLength.toNat) :
    parseWith limits input = (Machine.readWindow limits 0 ⟨0, input⟩ 0).map Prod.fst :=
  if_neg (Nat.not_lt.mpr h)

/-- **What an expression comes to under any limits**: its tree, or what is wrong with its
first site that offends. -/
theorem parseWith_expression {limits : Limits} {e : Expression} (he : e.WellFormed)
    (h : e.bytes.length ≤ limits.inputLength.toNat) :
    parseWith limits e.bytes =
      (Site.excess? limits 0 (e.sites 0 0)).elim (.ok (e.query 0)) .error := by
  rw [parseWith_eq_readWindow h, Machine.readWindow_expression he rfl 0]
  cases Site.excess? limits 0 (e.sites 0 0) <;> rfl

/-- An input that is accepted under any limits is an expression. -/
theorem derives_of_parseWith {limits : Limits} {input : List UInt8} {q : Query}
    (h : parseWith limits input = .ok q) :
    ∃ e : Expression, e.WellFormed ∧ e.bytes = input ∧ e.query 0 = q := by
  unfold parseWith at h
  split at h
  · cases h
  · cases hread : Machine.readWindow limits 0 ⟨0, input⟩ 0 with
    | error e =>
        rw [hread] at h
        cases h
    | ok result =>
        rw [hread] at h
        cases h
        exact Machine.derives_of_readWindow hread

/-- **The accepted inputs are the expressions of the grammar**, and a query is the tree
that the grammar gives.  An input is shorter than the greatest limit on its length. -/
theorem parseWith_unlimited_eq_ok_iff {input : List UInt8} {q : Query}
    (hlength : input.length < UInt64.size) :
    parseWith .unlimited input = .ok q ↔
      ∃ e : Expression, e.WellFormed ∧ e.bytes = input ∧ e.query 0 = q := by
  constructor
  · exact derives_of_parseWith
  · intro h
    obtain ⟨e, he, rfl, rfl⟩ := h
    have hmax : Limits.unlimited.inputLength.toNat = UInt64.size - 1 := rfl
    rw [parseWith_expression he (by omega), Expression.excess?_unlimited hlength]
    rfl

/-- The expression `(a==1)`, which is accepted because the grammar derives it. -/
theorem parseWith_unlimited_group_eq_ok :
    (Utf8.encode "(a==1)").length < UInt64.size ∧
      parseWith .unlimited (Utf8.encode "(a==1)") =
        .ok (.group (.comparison ⟨.key ⟨"a", ⟨1, 2⟩⟩, .equals, .integer 1⟩)) := by
  have hlength : (Utf8.encode "(a==1)").length < UInt64.size := by decide
  refine ⟨hlength, (parseWith_unlimited_eq_ok_iff hlength).mpr ?_⟩
  exact ⟨.smallGroup, Expression.smallGroup_wellFormed, by decide, rfl⟩

end RecordFilter
