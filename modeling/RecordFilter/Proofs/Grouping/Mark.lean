import RecordFilter.Proofs.Grouping.Phrase

/-!
# What the scan for a closing parenthesis sees

On its way the scan sees strings, which hide what stands in them, and it counts the parentheses
outside of strings.  What it sees in one text behind another is what it sees in the one and in
the other, as long as no string reaches from the one into the other.

* `sees_append` — what the scan sees in two texts, one behind the other;
* `sees_inside` — what it sees in a group;
* `Value.Writes.sees` — in a literal it sees a string, or nothing.
-/

namespace RecordFilter

/-- A byte that means nothing to the scan outside of strings. -/
def Byte.Plain (b : UInt8) : Prop := b ≠ quote ∧ b ≠ openParen ∧ b ≠ closeParen

instance (b : UInt8) : Decidable (Byte.Plain b) :=
  inferInstanceAs (Decidable (b ≠ Byte.quote ∧ b ≠ Byte.openParen ∧ b ≠ Byte.closeParen))

namespace Grouping

variable {s t bytes : List UInt8} {b : UInt8} {origin i j k : Nat}

/-! ## Where the scan stands -/

/-- Where the scan stands in front of the byte at offset `k`. -/
def quotingAt (bytes : List UInt8) (k : Nat) : Quoting := quotingFrom .outside (bytes.take k)

/-- What follows does not change where strings are. -/
theorem quotingAt_append_left (hk : k ≤ s.length) (t : List UInt8) :
    quotingAt (s ++ t) k = quotingAt s k := by
  rw [quotingAt, List.take_append_of_le_length hk, quotingAt]

/-- Behind a text that ends outside of strings, strings are where they are without it. -/
theorem quotingAt_append_right (hs : quotingFrom .outside s = .outside) (t : List UInt8)
    (k : Nat) : quotingAt (s ++ t) (s.length + k) = quotingAt t k := by
  rw [quotingAt, List.take_length_add_append, quotingFrom_append, hs, quotingAt]

/-- At the end of a text its quoting is that of the whole text. -/
theorem quotingAt_length (bytes : List UInt8) :
    quotingAt bytes bytes.length = quotingFrom .outside bytes := by
  rw [quotingAt, List.take_length]

/-- The scan takes the bytes from `i` up to `j` for a string: it stands outside of strings in
front of them and behind them, and inside of one all the way in between. -/
structure StringAt (bytes : List UInt8) (i j : Nat) : Prop where
  lt : i < j
  le : j ≤ bytes.length
  quote : bytes[i]? = some Byte.quote
  before : quotingAt bytes i = .outside
  within : ∀ k, i < k → k < j → quotingAt bytes k ≠ .outside
  behind : quotingAt bytes j = .outside

/-- The scan counts the parenthesis at offset `k`. -/
structure CountedAt (bytes : List UInt8) (k : Nat) : Prop where
  outside : quotingAt bytes k = .outside
  parenthesis : bytes[k]? = some Byte.openParen ∨ bytes[k]? = some Byte.closeParen

/-- A parenthesis that counts is a byte of the text. -/
theorem CountedAt.lt (h : CountedAt bytes k) : k < bytes.length := by
  rcases h.parenthesis with hopen | hclose
  · exact (List.getElem?_eq_some_iff.mp hopen).1
  · exact (List.getElem?_eq_some_iff.mp hclose).1

/-- A string in the first of two texts is one in both together. -/
theorem stringAt_append_left (hs : quotingFrom .outside s = .outside) (hi : i < s.length) :
    StringAt (s ++ t) i j ↔ StringAt s i j := by
  have hbyte : (s ++ t)[i]? = s[i]? := List.getElem?_append_left hi
  have hquoting := fun k (hk : k ≤ s.length) => quotingAt_append_left hk t
  constructor
  · intro h
    -- At the border the scan is outside of strings, so none reaches over it.
    have hj : j ≤ s.length := by
      apply Nat.le_of_not_lt
      intro hj
      apply h.within s.length hi hj
      rw [hquoting s.length (Nat.le_refl _), quotingAt_length, hs]
    refine ⟨h.lt, hj, hbyte ▸ h.quote, ?_, ?_, ?_⟩
    · rw [← hquoting i (Nat.le_of_lt hi)]
      exact h.before
    · intro k hik hkj
      rw [← hquoting k (by omega)]
      exact h.within k hik hkj
    · rw [← hquoting j hj]
      exact h.behind
  · intro h
    have hj := h.le
    refine ⟨h.lt, ?_, hbyte ▸ h.quote, ?_, ?_, ?_⟩
    · rw [List.length_append]
      exact Nat.le_add_right_of_le hj
    · rw [hquoting i (Nat.le_of_lt hi)]
      exact h.before
    · intro k hik hkj
      rw [hquoting k (by omega)]
      exact h.within k hik hkj
    · rw [hquoting j hj]
      exact h.behind

/-- A string in the second of two texts is one in both together, further on. -/
theorem stringAt_append_right (hs : quotingFrom .outside s = .outside) :
    StringAt (s ++ t) (s.length + i) (s.length + j) ↔ StringAt t i j := by
  have hbyte : (s ++ t)[s.length + i]? = t[i]? := by
    rw [List.getElem?_append_right (Nat.le_add_right _ _), Nat.add_sub_cancel_left]
  have hquoting := quotingAt_append_right hs t
  constructor
  · intro h
    have hlt := h.lt
    have hle := h.le
    rw [List.length_append] at hle
    refine ⟨by omega, by omega, hbyte ▸ h.quote, hquoting i ▸ h.before, ?_,
      hquoting j ▸ h.behind⟩
    intro k hik hkj
    rw [← hquoting k]
    exact h.within _ (by omega) (by omega)
  · intro h
    have hlt := h.lt
    have hle := h.le
    refine ⟨by omega, ?_, hbyte ▸ h.quote, (hquoting i).trans h.before, ?_,
      (hquoting j).trans h.behind⟩
    · rw [List.length_append]
      omega
    · intro k hik hkj
      obtain ⟨n, rfl⟩ := Nat.exists_eq_add_of_le (Nat.le_trans (Nat.le_add_right _ _)
        (Nat.le_of_lt hik))
      rw [hquoting n]
      exact h.within n (by omega) (by omega)

/-- What follows does not change which parentheses count. -/
theorem countedAt_append_left (hk : k < s.length) :
    CountedAt (s ++ t) k ↔ CountedAt s k := by
  have hbyte : (s ++ t)[k]? = s[k]? := List.getElem?_append_left hk
  have hquoting := quotingAt_append_left (Nat.le_of_lt hk) t
  constructor
  · intro h
    exact ⟨hquoting ▸ h.outside, hbyte ▸ h.parenthesis⟩
  · intro h
    exact ⟨hquoting.trans h.outside, hbyte.symm ▸ h.parenthesis⟩

/-- Behind a text that ends outside of strings, the parentheses that count are those that count
without it. -/
theorem countedAt_append_right (hs : quotingFrom .outside s = .outside) :
    CountedAt (s ++ t) (s.length + k) ↔ CountedAt t k := by
  have hbyte : (s ++ t)[s.length + k]? = t[k]? := by
    rw [List.getElem?_append_right (Nat.le_add_right _ _), Nat.add_sub_cancel_left]
  have hquoting := quotingAt_append_right hs t k
  constructor
  · intro h
    exact ⟨hquoting ▸ h.outside, hbyte ▸ h.parenthesis⟩
  · intro h
    exact ⟨hquoting.trans h.outside, hbyte.symm ▸ h.parenthesis⟩

/-! ## What the scan sees -/

/-- What both the scan and the readers take note of: a string, from its opening quote up to
behind its closing one, and a parenthesis. -/
inductive Mark where
  | string (start stop : Nat)
  | parenthesis (offset : Nat)
deriving DecidableEq

/-- The offset at which a mark starts. -/
def Mark.start : Mark → Nat
  | string start _ => start
  | parenthesis offset => offset

/-- The scan sees the mark in the bytes, the first of which stands at offset `origin`. -/
def Sees (origin : Nat) (bytes : List UInt8) : Mark → Prop
  | .string start stop => ∃ i j, start = origin + i ∧ stop = origin + j ∧ StringAt bytes i j
  | .parenthesis offset => ∃ k, offset = origin + k ∧ CountedAt bytes k

variable {mark : Mark}

/-- What the scan sees starts among the bytes. -/
theorem Sees.start_lt (h : Sees origin bytes mark) :
    origin ≤ mark.start ∧ mark.start < origin + bytes.length := by
  cases mark with
  | string start stop =>
      obtain ⟨i, j, rfl, rfl, hstring⟩ := h
      have hlt := hstring.lt
      have hle := hstring.le
      refine ⟨Nat.le_add_right _ _, ?_⟩
      show origin + i < origin + bytes.length
      omega
  | parenthesis offset =>
      obtain ⟨k, rfl, hcounted⟩ := h
      exact ⟨Nat.le_add_right _ _, Nat.add_lt_add_left hcounted.lt origin⟩

/-- **What the scan sees in two texts**, one behind the other, if it is outside of strings
between them. -/
theorem sees_append (hs : quotingFrom .outside s = .outside) :
    Sees origin (s ++ t) mark ↔ Sees origin s mark ∨ Sees (origin + s.length) t mark := by
  cases mark with
  | string start stop =>
      constructor
      · rintro ⟨i, j, rfl, rfl, hstring⟩
        by_cases hi : i < s.length
        · exact .inl ⟨i, j, rfl, rfl, (stringAt_append_left hs hi).mp hstring⟩
        · have hlt := hstring.lt
          obtain ⟨i, rfl⟩ := Nat.exists_eq_add_of_le (Nat.le_of_not_lt hi)
          obtain ⟨j, rfl⟩ : ∃ n, j = s.length + n := Nat.exists_eq_add_of_le (by omega)
          exact .inr ⟨i, j, (Nat.add_assoc ..).symm, (Nat.add_assoc ..).symm,
            (stringAt_append_right hs).mp hstring⟩
      · rintro (⟨i, j, rfl, rfl, hstring⟩ | ⟨i, j, rfl, rfl, hstring⟩)
        · have hi := Nat.lt_of_lt_of_le hstring.lt hstring.le
          exact ⟨i, j, rfl, rfl, (stringAt_append_left hs hi).mpr hstring⟩
        · exact ⟨_, _, Nat.add_assoc .., Nat.add_assoc ..,
            (stringAt_append_right hs).mpr hstring⟩
  | parenthesis offset =>
      constructor
      · rintro ⟨k, rfl, hcounted⟩
        by_cases hk : k < s.length
        · exact .inl ⟨k, rfl, (countedAt_append_left hk).mp hcounted⟩
        · obtain ⟨k, rfl⟩ := Nat.exists_eq_add_of_le (Nat.le_of_not_lt hk)
          exact .inr ⟨k, (Nat.add_assoc ..).symm, (countedAt_append_right hs).mp hcounted⟩
      · rintro (⟨k, rfl, hcounted⟩ | ⟨k, rfl, hcounted⟩)
        · exact ⟨k, rfl, (countedAt_append_left hcounted.lt).mpr hcounted⟩
        · exact ⟨_, Nat.add_assoc .., (countedAt_append_right hs).mpr hcounted⟩

/-- The scan sees nothing in bytes without quotes and parentheses. -/
theorem not_sees_of_plain (h : ∀ b ∈ bytes, Byte.Plain b) : ¬Sees origin bytes mark := by
  intro hsees
  cases mark with
  | string start stop =>
      obtain ⟨i, j, -, -, hstring⟩ := hsees
      exact (h _ (List.mem_of_getElem? hstring.quote)).1 rfl
  | parenthesis offset =>
      obtain ⟨k, -, hcounted⟩ := hsees
      rcases hcounted.parenthesis with hopen | hclose
      · exact (h _ (List.mem_of_getElem? hopen)).2.1 rfl
      · exact (h _ (List.mem_of_getElem? hclose)).2.2 rfl

/-- The scan counts a parenthesis that stands for itself. -/
theorem sees_parenthesis (hb : b = Byte.openParen ∨ b = Byte.closeParen) :
    Sees origin [b] mark ↔ mark = .parenthesis origin := by
  have hcounted : CountedAt [b] 0 := by
    refine ⟨rfl, ?_⟩
    rcases hb with rfl | rfl
    · exact .inl rfl
    · exact .inr rfl
  constructor
  · intro h
    cases mark with
    | string start stop =>
        obtain ⟨i, j, -, -, hstring⟩ := h
        obtain rfl := List.mem_singleton.mp (List.mem_of_getElem? hstring.quote)
        rcases hb with hb | hb
        · exact absurd hb (by decide)
        · exact absurd hb (by decide)
    | parenthesis offset =>
        obtain ⟨k, rfl, hk⟩ := h
        obtain rfl : k = 0 := Nat.lt_one_iff.mp hk.lt
        rfl
  · rintro rfl
    exact ⟨0, rfl, hcounted⟩

/-- **What the scan sees in a group**: of all that it sees from the opening parenthesis on, what
starts behind that one and in front of the one that closes it. -/
theorem sees_inside (h : closing? bytes = some i) :
    Sees (origin + 1) (bytes.take i) mark ↔ Sees origin (Byte.openParen :: bytes) mark ∧
      origin < mark.start ∧ mark.start < origin + (i + 1) := by
  obtain ⟨hbalanced, -⟩ := balanced_of_closing? h
  have hlength : (bytes.take i).length = i :=
    List.length_take_of_le (Nat.le_of_lt (closing?_lt h))
  have hpieces : Sees origin (Byte.openParen :: bytes) mark ↔
      Sees origin [Byte.openParen] mark ∨ Sees (origin + 1) (bytes.take i) mark ∨
        Sees (origin + 1 + i) (bytes.drop i) mark := by
    have hcons : Byte.openParen :: bytes =
        [Byte.openParen] ++ (bytes.take i ++ bytes.drop i) := by
      rw [List.take_append_drop, List.singleton_append]
    rw [hcons, sees_append rfl, sees_append hbalanced.outside, hlength, List.length_singleton]
  rw [hpieces]
  -- Of the three pieces only the contents have offsets between the two parentheses.
  constructor
  · intro hinside
    have hstart := hinside.start_lt
    rw [hlength] at hstart
    exact ⟨.inr (.inl hinside), by omega, by omega⟩
  · rintro ⟨hfront | hinside | hbehind, habove, hbelow⟩
    · have hstart := hfront.start_lt
      rw [List.length_singleton] at hstart
      omega
    · exact hinside
    · have hstart := hbehind.start_lt
      omega

end Grouping

/-! ## Literals -/

open Grouping

/-- In a string the scan is inside up to the closing quote. -/
theorem Quoted.Sealed.quotingFrom_ne {body : List UInt8} (h : Quoted.Sealed body) (k : Nat)
    (hk : k ≤ body.length) : quotingFrom .inside (body.take k) ≠ .outside := by
  induction h generalizing k with
  | nil =>
      rw [List.take_nil]
      exact Quoting.noConfusion
  | @plain b body hquote hbackslash _ ih =>
      cases k with
      | zero => exact Quoting.noConfusion
      | succ k =>
          have hnext : Quoting.inside.next b = .inside := by
            rw [Quoting.next, if_neg hbackslash, if_neg hquote]
          rw [List.take_succ_cons, quotingFrom_cons, hnext]
          exact ih k (Nat.le_of_succ_le_succ hk)
  | @escape c b body _ _ ih =>
      cases k with
      | zero => exact Quoting.noConfusion
      | succ k =>
          cases k with
          | zero => exact Quoting.noConfusion
          | succ k =>
              rw [List.take_succ_cons, List.take_succ_cons]
              exact ih k (Nat.le_of_succ_le_succ (Nat.le_of_succ_le_succ hk))

/-- The scan is outside of a string in front of it only. -/
theorem Quoted.Sealed.eq_zero_of_quotingAt {body : List UInt8} {k : Nat} (h : Quoted.Sealed body)
    (hk : k ≤ body.length + 1)
    (hquoting : quotingAt (Byte.quote :: (body ++ [Byte.quote])) k = .outside) : k = 0 := by
  cases k with
  | zero => rfl
  | succ k =>
      have hle := Nat.le_of_succ_le_succ hk
      rw [quotingAt, List.take_succ_cons, List.take_append_of_le_length hle] at hquoting
      exact absurd hquoting (h.quotingFrom_ne k hle)

/-- The scan takes a string for a string, and counts no parenthesis in it. -/
theorem Quoted.Sealed.sees {body : List UInt8} {origin : Nat} {mark : Mark}
    (h : Quoted.Sealed body) :
    Sees origin (Byte.quote :: (body ++ [Byte.quote])) mark ↔
      mark = .string origin (origin + (body.length + 2)) := by
  have hlength : (Byte.quote :: (body ++ [Byte.quote])).length = body.length + 2 := by
    rw [List.length_cons, List.length_append, List.length_singleton]
  constructor
  · intro hsees
    cases mark with
    | string start stop =>
        obtain ⟨i, j, rfl, rfl, hstring⟩ := hsees
        have hlt := hstring.lt
        have hle := hstring.le
        rw [hlength] at hle
        obtain rfl := h.eq_zero_of_quotingAt (by omega) hstring.before
        by_cases hj : j ≤ body.length + 1
        · obtain rfl := h.eq_zero_of_quotingAt hj hstring.behind
          exact absurd hlt (Nat.lt_irrefl 0)
        · obtain rfl : j = body.length + 2 := by omega
          rfl
    | parenthesis offset =>
        obtain ⟨k, rfl, hcounted⟩ := hsees
        have hlt := hcounted.lt
        rw [hlength] at hlt
        obtain rfl := h.eq_zero_of_quotingAt (Nat.le_of_lt_succ hlt) hcounted.outside
        rcases hcounted.parenthesis with hopen | hclose
        · cases hopen
        · cases hclose
  · rintro rfl
    refine ⟨0, body.length + 2, rfl, rfl, Nat.succ_pos _, Nat.le_of_eq hlength.symm, rfl, rfl,
      ?_, ?_⟩
    · intro k hpos hk hquoting
      exact absurd (h.eq_zero_of_quotingAt (Nat.le_of_lt_succ hk) hquoting)
        (Nat.pos_iff_ne_zero.mp hpos)
    · rw [← hlength, quotingAt_length]
      exact h.silent.1

/-- A literal that is no string has neither quotes nor parentheses. -/
theorem Value.Writes.plain {value : Value} {literal : List UInt8} (h : value.Writes literal)
    (hvalue : ∀ text, value ≠ .string text) : ∀ b ∈ literal, Byte.Plain b := by
  have hsign : ∀ negative, ∀ b ∈ Byte.sign negative, Byte.Plain b := by
    intro negative b hb
    cases negative with
    | false => cases hb
    | true =>
        rw [List.mem_singleton.mp hb]
        decide
  intro b hb
  cases h with
  | integer negative hdigits _ =>
      rcases List.mem_append.mp hb with hb | hb
      · exact hsign negative b hb
      · exact Byte.plain_of_isDigit (hdigits.all b hb)
  | decimal negative hwhole hfraction _ =>
      rcases List.mem_append.mp hb with hb | hb
      · exact hsign negative b hb
      rcases List.mem_append.mp hb with hb | hb
      · exact Byte.plain_of_isDigit (hwhole.all b hb)
      rcases List.mem_cons.mp hb with rfl | hb
      · decide
      · exact Byte.plain_of_isDigit (hfraction.all b hb)
  | string _ => exact absurd rfl (hvalue _)
  | true hword =>
      exact Byte.plain_of_isLetter
        (Byte.isLetter_of_spells hword (List.all_eq_true.mp (by decide)) b hb)
  | false hword =>
      exact Byte.plain_of_isLetter
        (Byte.isLetter_of_spells hword (List.all_eq_true.mp (by decide)) b hb)

/-- **In a literal the scan sees a string, or nothing.** -/
theorem Value.Writes.sees {value : Value} {literal : List UInt8} {origin : Nat} {mark : Mark}
    (h : value.Writes literal) :
    Sees origin literal mark ↔
      (∃ text, value = .string text) ∧ mark = .string origin (origin + literal.length) := by
  by_cases hstring : ∃ text, value = .string text
  · obtain ⟨text, rfl⟩ := hstring
    cases h with
    | string hbody =>
        rw [hbody.sealed.sees, List.length_cons, List.length_append, List.length_singleton]
        exact ⟨fun hmark => ⟨⟨_, rfl⟩, hmark⟩, fun hmark => hmark.2⟩
  · have hplain := h.plain fun text heq => hstring ⟨text, heq⟩
    exact ⟨fun hsees => absurd hsees (not_sees_of_plain hplain),
      fun hmark => absurd hmark.1 hstring⟩

end RecordFilter
