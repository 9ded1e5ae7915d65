import RecordFilter.Proofs.Grammar.Phrase
import RecordFilter.Proofs.Reading.Symbol

/-!
# First bytes

Every form starts with a byte that tells it from what may stand before it.  No form starts
with a blank, so the blanks in front of one are skipped and nothing else.

* `Phrase.WellFormed.first` — a phrase starts with a parenthesis or a letter.
-/

namespace RecordFilter

/-- An operator starts with a byte that can neither go on with a subject nor be skipped. -/
theorem Operator.first (o : Operator) :
    ∃ b rest, o.bytes = b :: rest ∧ b ≠ Byte.space ∧ b ≠ Byte.dot ∧
      Byte.isLetter b = false := by
  cases o <;> exact ⟨_, _, rfl, by decide, by decide, by decide⟩

/-- A connector does not start with a blank. -/
theorem Connector.Writes.first {c : Connector} {token : List UInt8} (h : c.Writes token) :
    ∃ b rest, token = b :: rest ∧ b ≠ Byte.space := by
  rcases h with rfl | hword
  · cases c <;> exact ⟨_, _, rfl, by decide⟩
  · obtain ⟨b, rest, rfl, hb⟩ := first_of_spells_word hword
    exact ⟨b, rest, rfl, Byte.ne_of_class hb (by decide)⟩

/-- A name starts with a letter. -/
theorem IsName.first {name : String} (h : IsName name) :
    ∃ b rest, Utf8.encode name = b :: rest ∧ Byte.isLetter b = true := by
  obtain ⟨b, rest, hbytes⟩ := List.exists_cons_of_ne_nil h.encode_ne_nil
  exact ⟨b, rest, hbytes, h.letters_encode b (by simp [hbytes])⟩

/-- A function starts with the first letter of its name. -/
theorem CallForm.WellFormed.first {c : CallForm} (h : c.WellFormed) :
    ∃ b rest, c.bytes = b :: rest ∧ Byte.isLetter b = true := by
  obtain ⟨b, rest, hbytes, hb⟩ := h.name.first
  rw [CallForm.bytes, hbytes]
  exact ⟨b, _, rfl, hb⟩

/-- No blank stands in front of a function. -/
theorem CallForm.WellFormed.peek?_ne_space {c : CallForm} {w after : Window}
    (h : c.WellFormed) (htakes : w.Takes c.bytes after) : w.peek? ≠ some Byte.space := by
  obtain ⟨b, rest, hbytes, hb⟩ := h.first
  rw [hbytes] at htakes
  intro hspace
  obtain rfl := htakes.eq_of_peek? hspace
  exact absurd hb (by decide)

/-- A subject starts with the first letter of its key. -/
theorem SubjectForm.WellFormed.first {s : SubjectForm} (h : s.WellFormed) :
    ∃ b rest, s.bytes = b :: rest ∧ Byte.isLetter b = true := by
  cases s with
  | key name => exact IsName.first h
  | call name gap function =>
      obtain ⟨b, rest, hbytes, hb⟩ := h.1.first
      refine ⟨b, rest ++ Byte.dot :: (Byte.spaces gap ++ function.bytes), ?_, hb⟩
      rw [SubjectForm.bytes, hbytes, List.cons_append]

/-- The first byte of a phrase opens a group or is the first letter of a key. -/
theorem Phrase.WellFormed.first {p : Phrase} (h : p.WellFormed) :
    ∃ b rest, p.bytes = b :: rest ∧ (b = Byte.openParen ∨ Byte.isLetter b = true) := by
  induction p with
  | comparison c =>
      obtain ⟨b, rest, hbytes, hb⟩ := SubjectForm.WellFormed.first h.subject
      simp only [Phrase.bytes, ComparisonForm.bytes, hbytes, List.cons_append]
      exact ⟨b, _, rfl, .inr hb⟩
  | group before inner behind _ => exact ⟨_, _, rfl, .inl rfl⟩
  | joined lhs before connector token behind rhs ihl _ =>
      obtain ⟨b, rest, hbytes, hb⟩ := ihl h.1
      simp only [Phrase.bytes, hbytes, List.cons_append]
      exact ⟨b, _, rfl, hb⟩

/-- No blank stands in front of a phrase. -/
theorem Phrase.WellFormed.peek?_ne_space {p : Phrase} {w after : Window} (h : p.WellFormed)
    (htakes : w.Takes p.bytes after) : w.peek? ≠ some Byte.space := by
  obtain ⟨b, rest, hbytes, hb⟩ := h.first
  rw [hbytes] at htakes
  rw [htakes.peek?_cons]
  intro heq
  cases heq
  rcases hb with hb | hb
  · exact absurd hb (by decide)
  · exact absurd hb (by decide)

/-- A group starts with its parenthesis. -/
theorem Phrase.exists_of_isGroup {p : Phrase} (h : p.IsGroup) :
    ∃ rest, p.bytes = Byte.openParen :: rest := by
  cases p with
  | group before inner behind => exact ⟨_, rfl⟩
  | comparison c => exact h.elim
  | joined lhs before connector token behind rhs => exact h.elim

end RecordFilter
