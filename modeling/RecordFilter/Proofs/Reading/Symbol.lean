import RecordFilter.Reading.Symbol
import RecordFilter.Proofs.Text.Utf8

/-!
# What the readers of operators and connectors accept

An operator is read wherever its bytes stand, with at least one byte behind a short one
and no equality sign there.  A connector is read wherever one of its tokens stands; a
word must be a maximal run of letters.

* `Operator.read_eq_ok_iff`, `Connector.read_eq_ok_iff` — both readers, exactly.
-/

namespace RecordFilter

variable {w after : Window}

/-! ## Operators -/

/-- Whether an operator is the start of a longer one. -/
def Operator.IsShort (o : Operator) : Prop := o = .less ∨ o = .greater

/-- An operator of two bytes is no start of a longer one. -/
theorem Operator.not_isShort {o : Operator} (h : o.bytes.length = 2) : ¬o.IsShort := by
  intro hshort
  rcases hshort with rfl | rfl
  · exact absurd h (by decide)
  · exact absurd h (by decide)

/-- An operator that is read was written, and a short one is not the front of a longer one. -/
theorem Operator.takes_of_read {o : Operator} (h : Operator.read w = .ok (o, after)) :
    w.Takes o.bytes after ∧ (o.IsShort → ∃ b, after.peek? = some b ∧ b ≠ Byte.equals) := by
  cases w with
  | mk pos rest =>
    unfold Operator.read at h
    split at h
    · next first second tail hrest =>
      dsimp only at hrest
      subst hrest
      have hlong : o.bytes = [first, second] → after = ⟨pos + 2, tail⟩ →
          (⟨pos, first :: second :: tail⟩ : Window).Takes o.bytes after ∧
            (o.IsShort → ∃ b, after.peek? = some b ∧ b ≠ Byte.equals) := by
        intro hbytes hafter
        subst hafter
        have hnot := Operator.not_isShort (congrArg List.length hbytes)
        exact ⟨hbytes ▸ ⟨rfl, rfl⟩, fun hshort => absurd hshort hnot⟩
      have hshort : o.bytes = [first] → second ≠ Byte.equals →
          after = ⟨pos + 1, second :: tail⟩ →
          (⟨pos, first :: second :: tail⟩ : Window).Takes o.bytes after ∧
            (o.IsShort → ∃ b, after.peek? = some b ∧ b ≠ Byte.equals) := by
        intro hbytes hsecond hafter
        subst hafter
        exact ⟨hbytes ▸ ⟨rfl, rfl⟩, fun _ => ⟨second, rfl, hsecond⟩⟩
      split at h
      · next hfirst =>
        split at h
        · next hsecond =>
          cases h
          exact hlong (by rw [hfirst, hsecond]; rfl) rfl
        · next hsecond =>
          cases h
          exact hshort (by rw [hfirst]; rfl) hsecond rfl
      split at h
      · next hfirst =>
        split at h
        · next hsecond =>
          cases h
          exact hlong (by rw [hfirst, hsecond]; rfl) rfl
        · next hsecond =>
          cases h
          exact hshort (by rw [hfirst]; rfl) hsecond rfl
      split at h
      · next hboth =>
        cases h
        exact hlong (by rw [hboth.1, hboth.2]; rfl) rfl
      split at h
      · next hboth =>
        cases h
        exact hlong (by rw [hboth.1, hboth.2]; rfl) rfl
      · cases h
    · cases h

/-- An operator that is written is read, if it is not the front of a longer one. -/
theorem Operator.read_of_takes {o : Operator} (h : w.Takes o.bytes after)
    (hshort : o.IsShort → ∃ b, after.peek? = some b ∧ b ≠ Byte.equals) :
    Operator.read w = .ok (o, after) := by
  have hskip := h.skip_eq
  cases w with
  | mk pos rest =>
    have hrest : rest = o.bytes ++ after.rest := h.rest_eq
    subst hrest
    cases after with
    | mk apos arest =>
      have hnext : o.IsShort → ∃ b tail, arest = b :: tail ∧ b ≠ Byte.equals := by
        intro hs
        obtain ⟨b, hb, hne⟩ := hshort hs
        obtain ⟨tail, htail⟩ := List.head?_eq_some_iff.mp hb
        exact ⟨b, tail, htail, hne⟩
      cases o with
      | equals => rw [← hskip]; rfl
      | notEquals => rw [← hskip]; rfl
      | greaterEquals => rw [← hskip]; rfl
      | lessEquals => rw [← hskip]; rfl
      | greater =>
          obtain ⟨b, tail, rfl, hne⟩ := hnext (.inr rfl)
          rw [← hskip]
          show Operator.read ⟨pos, Byte.greater :: b :: tail⟩ = _
          simp only [Operator.read, if_neg hne]
          rfl
      | less =>
          obtain ⟨b, tail, rfl, hne⟩ := hnext (.inl rfl)
          rw [← hskip]
          show Operator.read ⟨pos, Byte.less :: b :: tail⟩ = _
          simp only [Operator.read, if_neg hne]
          rfl

/-- **The operator reader, exactly.**  A longer operator always wins over a shorter
one, which moreover needs a byte behind it. -/
theorem Operator.read_eq_ok_iff {o : Operator} :
    Operator.read w = .ok (o, after) ↔
      w.Takes o.bytes after ∧ (o.IsShort → ∃ b, after.peek? = some b ∧ b ≠ Byte.equals) :=
  ⟨Operator.takes_of_read, fun h => Operator.read_of_takes h.1 h.2⟩

/-! ## Words in any case -/

/-- Capital and small letters are letters alike. -/
theorem Byte.isLetter_lower (b : UInt8) : Byte.isLetter (Byte.lower b) = Byte.isLetter b := by
  by_cases hcapital : 0x41 ≤ b ∧ b ≤ 0x5A
  · have hlower : Byte.lower b = b + 0x20 := by simp [Byte.lower, hcapital]
    have hnat : (b + 0x20).toNat = b.toNat + 32 := by
      rw [UInt8.toNat_add]
      have := UInt8.le_iff_toNat_le.mp hcapital.2
      change b.toNat ≤ 90 at this
      change (b.toNat + 32) % 256 = _
      omega
    have hlow := UInt8.le_iff_toNat_le.mp hcapital.1
    have hhigh := UInt8.le_iff_toNat_le.mp hcapital.2
    change 65 ≤ b.toNat at hlow
    change b.toNat ≤ 90 at hhigh
    rw [hlower, Bool.eq_iff_iff, Byte.isLetter_iff, Byte.isLetter_iff, hnat]
    omega
  · rw [Byte.lower, if_neg (by simpa using hcapital)]

/-- Whatever spells a word of letters is made of letters. -/
theorem Byte.isLetter_of_spells {word : List Char} {token : List UInt8}
    (h : Byte.spells word token = true)
    (hword : ∀ c ∈ word, Byte.isLetter c.toUInt8 = true) :
    ∀ b ∈ token, Byte.isLetter b = true := by
  intro b hb
  have hmap : token.map Byte.lower = word.map Char.toUInt8 := by
    simpa [Byte.spells] using h
  have hlower : Byte.lower b ∈ word.map Char.toUInt8 := hmap ▸ List.mem_map_of_mem hb
  obtain ⟨c, hc, heq⟩ := List.mem_map.mp hlower
  rw [← Byte.isLetter_lower, ← heq]
  exact hword c hc

/-- Whatever spells a word of letters starts with a letter. -/
theorem Byte.first_of_spells {word : List Char} {token : List UInt8}
    (h : Byte.spells word token = true) (hne : word ≠ [])
    (hword : ∀ c ∈ word, Byte.isLetter c.toUInt8 = true) :
    ∃ b rest, token = b :: rest ∧ Byte.isLetter b = true := by
  have htoken : token ≠ [] := by
    simpa [List.isEmpty_iff] using Byte.not_isEmpty_of_spells h hne
  obtain ⟨b, rest, rfl⟩ := List.exists_cons_of_ne_nil htoken
  exact ⟨b, rest, rfl, Byte.isLetter_of_spells h hword b List.mem_cons_self⟩

/-! ## Connectors -/

namespace Connector

/-- The words of connectors are made of letters. -/
theorem isLetter_word (c : Connector) : ∀ d ∈ c.word, Byte.isLetter d.toUInt8 = true := by
  apply List.all_eq_true.mp
  cases c <;> decide

/-- A connector that is a word starts with a letter. -/
theorem first_of_spells_word {c : Connector} {token : List UInt8}
    (h : Byte.spells c.word token = true) :
    ∃ b rest, token = b :: rest ∧ Byte.isLetter b = true :=
  Byte.first_of_spells h (by cases c <;> simp [word]) c.isLetter_word

/-- A symbol is not a word. -/
theorem not_spells_word_symbol (c : Connector) :
    Byte.spells c.word (Utf8.encode c.symbol) = false := by
  cases c <;> decide

/-- A doubled symbol is read as the connector that was announced. -/
theorem takes_of_readSymbol {announced c : Connector} {b : UInt8}
    (hpeek : w.peek? = some b) (h : readSymbol announced w = .ok (c, after)) :
    c = announced ∧ w.Takes [b, b] after := by
  cases w with
  | mk pos rest =>
    unfold readSymbol at h
    split at h
    · next first second tail hrest =>
      dsimp only at hrest
      subst hrest
      cases hpeek
      split at h
      · next heq =>
        cases h
        subst heq
        exact ⟨rfl, rfl, rfl⟩
      · cases h
    · cases h

/-- A word that is read is the whole run of letters. -/
theorem takes_of_readWord {c : Connector} (h : readWord w = .ok (c, after)) :
    w.Takes (w.run Byte.isLetter) after ∧ Byte.spells c.word (w.run Byte.isLetter) = true ∧
      after = w.skipWhile Byte.isLetter := by
  unfold readWord at h
  dsimp only at h
  split at h
  · next hand =>
    cases h
    exact ⟨w.takes_run _, hand, rfl⟩
  split at h
  · next hor =>
    cases h
    exact ⟨w.takes_run _, hor, rfl⟩
  · cases h

/-- A connector that is read was written, and no letter follows a word. -/
theorem takes_of_read {c : Connector} (h : Connector.read w = .ok (c, after)) :
    ∃ token, w.Takes token after ∧ c.Writes token ∧
      (Byte.spells c.word token = true →
        ∀ b, after.peek? = some b → Byte.isLetter b = false) := by
  unfold Connector.read at h
  split at h
  · cases h
  · next b hpeek =>
    have hsymbol : ∀ announced : Connector, readSymbol announced w = .ok (c, after) →
        [b, b] = Utf8.encode announced.symbol →
        ∃ token, w.Takes token after ∧ c.Writes token ∧
          (Byte.spells c.word token = true →
            ∀ b, after.peek? = some b → Byte.isLetter b = false) := by
      intro announced hread htoken
      obtain ⟨rfl, htakes⟩ := takes_of_readSymbol hpeek hread
      refine ⟨[b, b], htakes, .inl htoken, ?_⟩
      intro hword
      rw [htoken, not_spells_word_symbol] at hword
      cases hword
    split at h
    · next hb => exact hsymbol .and h (by rw [hb]; decide)
    split at h
    · next hb => exact hsymbol .or h (by rw [hb]; decide)
    split at h
    · cases h
    split at h
    · obtain ⟨htakes, hword, rfl⟩ := takes_of_readWord h
      exact ⟨_, htakes, .inr hword, fun _ d hd => Window.not_of_peek?_skipWhile hd⟩
    · cases h

/-- A connector that is written is read, if no letter follows a word. -/
theorem read_of_takes {c : Connector} {token : List UInt8} (h : w.Takes token after)
    (htoken : c.Writes token)
    (hnext : Byte.spells c.word token = true →
      ∀ b, after.peek? = some b → Byte.isLetter b = false) :
    Connector.read w = .ok (c, after) := by
  rcases htoken with rfl | hword
  · have hskip := h.skip_eq
    cases w with
    | mk pos rest =>
      have hrest : rest = Utf8.encode c.symbol ++ after.rest := h.rest_eq
      subst hrest
      rw [← hskip]
      cases c <;> rfl
  · have hletters := Byte.isLetter_of_spells hword c.isLetter_word
    obtain ⟨hrun, hskip⟩ := h.run_eq hletters (hnext hword)
    obtain ⟨b, tail, rfl, hb⟩ := first_of_spells_word hword
    have hword' : readWord w = .ok (c, after) := by
      unfold readWord
      rw [hrun, hskip]
      cases c with
      | and => exact if_pos hword
      | or =>
          have hnot : Byte.spells ['a', 'n', 'd'] (b :: tail) = false := by
            have hmap : (b :: tail).map Byte.lower = Connector.or.word.map Char.toUInt8 := by
              simpa only [Byte.spells, beq_iff_eq] using hword
            rw [Byte.spells, hmap]
            rfl
          dsimp only
          rw [if_neg (by simp [hnot])]
          exact if_pos hword
    unfold Connector.read
    rw [h.peek?_cons]
    dsimp only
    have hother : ∀ d, Byte.isLetter d = false → b ≠ d := fun d => Byte.ne_of_class hb
    rw [if_neg (hother _ (by decide)), if_neg (hother _ (by decide)),
      if_neg (hother _ (by decide)), if_pos hb, hword']

/-- **The connector reader, exactly.**  A word has to be a maximal run of letters. -/
theorem read_eq_ok_iff {c : Connector} :
    Connector.read w = .ok (c, after) ↔ ∃ token, w.Takes token after ∧ c.Writes token ∧
      (Byte.spells c.word token = true →
        ∀ b, after.peek? = some b → Byte.isLetter b = false) := by
  constructor
  · exact takes_of_read
  · intro h
    obtain ⟨token, htakes, htoken, hnext⟩ := h
    exact read_of_takes htakes htoken hnext

end Connector

end RecordFilter
