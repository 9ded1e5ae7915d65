import RecordFilter.Proofs.Text.Quoted

/-!
# What the reader of strings reads, and where it fails

The reader first looks for the closing quote, and checks every escape on its way.  Only then does
it decode the body, and it unescapes the characters only if there was a backslash.  The three
agree because an escape is made of two ASCII bytes: a sealed body that is UTF-8 is made of
characters that stand for themselves and of whole escapes.

When something is wrong, the order of the three shows.  `StringFails` lists what a string is
refused for, and `tellsFirst_iff` says when this is the first thing that is wrong with it: unless
bytes that are no character stand in front of an unknown escape, or in a string without an end.

* `string_decodes` — what is read, by either way to the text;
* `body_eq_error_iff`, `string_eq_error_iff` — where the reader fails;
* `StringFails.tellsFirst_iff` — whether it tells the first fault.
-/

namespace RecordFilter

namespace Quoted

/-! ## The text of a body -/

/-- The text that a string body holds, unless a backslash ends it: that one has no character to
take with it. -/
def unescape? : List Char → Option (List Char)
  | [] => some []
  | [c] => if c = '\\' then none else some [c]
  | c :: d :: raw =>
      if c = '\\' then (unescape? raw).map (escaped d :: ·)
      else (unescape? (d :: raw)).map (c :: ·)

/-- A character that is no backslash stands for itself. -/
theorem unescape?_cons {c : Char} (h : c ≠ '\\') (raw : List Char) :
    unescape? (c :: raw) = (unescape? raw).map (c :: ·) := by
  cases raw with
  | nil => simp [unescape?, h]
  | cons d raw => rw [unescape?, if_neg h]

/-- A backslash takes the next character with it. -/
theorem unescape?_backslash (c : Char) (raw : List Char) :
    unescape? ('\\' :: c :: raw) = (unescape? raw).map (escaped c :: ·) := by
  rw [unescape?, if_pos rfl]

/-- No backslash ends a body. -/
theorem Legible.unescape?_eq {raw : List Char} (h : Legible raw) :
    unescape? raw = some (unescape raw) := by
  induction h with
  | nil => rfl
  | plain _ hbackslash _ ih =>
      rw [unescape?_cons hbackslash, ih, unescape_cons hbackslash]
      rfl
  | escape _ _ ih =>
      rw [unescape?_backslash, ih, unescape_backslash]
      rfl

/-- A body writes one text only. -/
theorem Writes.unique {text other : List Char} {body : List UInt8} (h : Writes text body)
    (hother : Writes other body) : other = text := by
  obtain ⟨raw, rfl, rfl⟩ := h.exists_raw
  obtain ⟨raw', hraw, rfl⟩ := hother.exists_raw
  rw [← Utf8.encode_ofList, ← Utf8.encode_ofList] at hraw
  rw [String.ofList_inj.mp (Utf8.encode_inj hraw)]

/-! ## What can be wrong with a body -/

section Faults

variable {front rest bytes : List UInt8} {j k : Nat}

/-- A quote closes the string. -/
def Closed (bytes : List UInt8) : Prop :=
  ∃ body rest, bytes = body ++ Byte.quote :: rest ∧ Sealed body

/-- The bytes end before the string is closed, or behind a backslash. -/
def Unclosed (bytes : List UInt8) : Prop :=
  Sealed bytes ∨ ∃ front, bytes = front ++ [Byte.backslash] ∧ Sealed front

/-- The `k`-th byte of the string is a backslash that escapes nothing known, the first such. -/
def UnknownEscapeAt (bytes : List UInt8) (k : Nat) : Prop :=
  ∃ front b rest, bytes = front ++ Byte.backslash :: b :: rest ∧ Sealed front ∧
    (∀ c, ¬Escape c b) ∧ k = front.length

/-- A string stays unclosed with a sealed text in front. -/
theorem Unclosed.append (hfront : Sealed front) (h : Unclosed rest) : Unclosed (front ++ rest) := by
  rcases h with hrest | ⟨inner, rfl, hinner⟩
  · exact .inl (hfront.append hrest)
  · exact .inr ⟨front ++ inner, (List.append_assoc _ _ _).symm, hfront.append hinner⟩

/-- An unknown escape moves on by a sealed text in front. -/
theorem UnknownEscapeAt.append (hfront : Sealed front) (h : UnknownEscapeAt rest k) :
    UnknownEscapeAt (front ++ rest) (front.length + k) := by
  obtain ⟨inner, b, more, rfl, hinner, hb, rfl⟩ := h
  exact ⟨front ++ inner, b, more, (List.append_assoc _ _ _).symm, hfront.append hinner, hb,
    List.length_append.symm⟩

/-- The bytes of a string up to its closing quote and with it, or all of them if it has none.  A
byte behind a backslash closes nothing. -/
def upToClose : List UInt8 → List UInt8
  | [] => []
  | [b] => [b]
  | b :: e :: rest =>
      if b = Byte.quote then [b]
      else if b = Byte.backslash then b :: e :: upToClose rest
      else b :: upToClose (e :: rest)

/-- A closing quote is the last byte of its string. -/
theorem upToClose_quote (rest : List UInt8) :
    upToClose (Byte.quote :: rest) = [Byte.quote] := by
  cases rest with
  | nil => rfl
  | cons e rest => rw [upToClose, if_pos rfl]

/-- A sealed text is part of the string. -/
theorem upToClose_append (h : Sealed front) (rest : List UInt8) :
    upToClose (front ++ rest) = front ++ upToClose rest := by
  induction h with
  | nil => rfl
  | @plain b body hquote hbackslash _ ih =>
      rw [List.cons_append, List.cons_append, ← ih]
      cases body ++ rest with
      | nil => rfl
      | cons e more => rw [upToClose, if_neg hquote, if_neg hbackslash]
  | escape _ _ ih =>
      rw [List.cons_append, List.cons_append, upToClose, if_neg (by decide), if_pos rfl, ih]
      rfl

/-- A string has a fault at its `k`-th byte: an escape that nothing is known of, or, in front of
the closing quote, bytes that are no character whatever follows. -/
def FaultAt (bytes : List UInt8) (k : Nat) : Prop :=
  UnknownEscapeAt bytes k ∨ Utf8.BreaksAt (upToClose bytes) k

/-- Bytes that are no character stand in front of an unknown escape, or in a string without an
end. -/
def Masked (bytes : List UInt8) : Prop :=
  ∃ k, Utf8.BreaksAt (upToClose bytes) k ∧
    ((∃ j, UnknownEscapeAt bytes j ∧ k < j) ∨ Unclosed bytes)

end Faults

end Quoted

namespace Literal

variable {place : Place}

/-- **What the reader of strings reads.**  It finds the quotes behind which a string can end, and
reads the text that the body in front of such a quote writes, the only one.  Its characters are
the body itself if there is no backslash, and otherwise unescaping them never comes to a backslash
that has no character behind it. -/
theorem string_decodes (place : Place) (pos : Nat) (bytes : List UInt8) :
    let opened : Window := ⟨pos + 1, bytes⟩
    unended place ⟨pos, Byte.quote :: bytes⟩ = string place opened ∧
    (∀ after, (∃ value, string place opened = .ok (value, after)) ↔
      ∃ raw : String, Quoted.Sealed (Utf8.encode raw) ∧
        opened.Takes (Utf8.encode raw ++ [Byte.quote]) after) ∧
    (∀ (raw : String) after, Quoted.Sealed (Utf8.encode raw) →
      opened.Takes (Utf8.encode raw ++ [Byte.quote]) after →
      ∃ text : String, string place opened = .ok (.string text, after) ∧
        (∀ other, Quoted.Writes other (Utf8.encode raw) ↔ other = text.toList) ∧
        (Byte.backslash ∉ Utf8.encode raw → text = raw) ∧
        Quoted.unescape? raw.toList = some text.toList) := by
  intro opened
  have hread : ∀ (raw : String) after, Quoted.Sealed (Utf8.encode raw) →
      opened.Takes (Utf8.encode raw ++ [Byte.quote]) after →
      string place opened = .ok (.string (String.ofList (Quoted.unescape raw.toList)), after) ∧
        Quoted.Writes (Quoted.unescape raw.toList) (Utf8.encode raw) := by
    intro raw after hsealed htakes
    have hwrites : Quoted.Writes (Quoted.unescape raw.toList) (Utf8.encode raw) := by
      rw [Utf8.encode_eq_flatMap] at hsealed ⊢
      exact Quoted.writes_of_sealed hsealed
    exact ⟨string_eq_ok_iff.mpr ⟨_, _, hwrites, rfl, htakes⟩, hwrites⟩
  refine ⟨?_, ?_, ?_⟩
  · unfold unended
    exact if_pos rfl
  · intro after
    constructor
    · rintro ⟨value, h⟩
      obtain ⟨text, body, hwrites, rfl, htakes⟩ := string_eq_ok_iff.mp h
      obtain ⟨raw, hraw, -⟩ := hwrites.exists_raw
      have hbody : body = Utf8.encode (String.ofList raw) := by
        rw [Utf8.encode_ofList, hraw]
      exact ⟨String.ofList raw, hbody ▸ hwrites.sealed, hbody ▸ htakes⟩
    · rintro ⟨raw, hsealed, htakes⟩
      exact ⟨_, (hread raw after hsealed htakes).1⟩
  · intro raw after hsealed htakes
    obtain ⟨hstring, hwrites⟩ := hread raw after hsealed htakes
    refine ⟨_, hstring, ?_, ?_, ?_⟩
    · intro other
      rw [String.toList_ofList]
      constructor
      · exact hwrites.unique
      · rintro rfl
        exact hwrites
    · intro hplain
      rw [Utf8.encode_eq_flatMap] at hplain
      rw [← Quoted.ite_unescape, if_neg hplain, String.ofList_toList]
    · rw [Utf8.encode_eq_flatMap] at hsealed
      rw [String.toList_ofList, (Quoted.legible_of_sealed hsealed).unescape?_eq]

/-- A character of two bytes stands for itself, and an escape for a line feed. -/
theorem string_decodes_escape :
    ∃ text : String, string .operand ⟨1, Utf8.encode "é\\n\" "⟩ =
      .ok (.string text, ⟨6, [Byte.space]⟩) ∧ text.toList = ['é', '\n'] := by
  have hsealed : Quoted.Sealed (Utf8.encode "é\\n") :=
    .plain (by decide) (by decide) (.plain (by decide) (by decide) (.escape .lineFeed .nil))
  obtain ⟨text, hread, -, -, htext⟩ :=
    (string_decodes .operand 0 (Utf8.encode "é\\n\" ")).2.2 "é\\n" ⟨6, [Byte.space]⟩ hsealed
      ⟨by decide, by decide⟩
  exact ⟨text, hread, (Option.some.inj htext).symm⟩

/-! ## Where the reader fails -/

section Failures

variable {w opened after : Window} {text : List UInt8} {e : SyntaxError} {k : Nat}

/-- The ways in which the end of a string is not found. -/
inductive BodyFails (place : Place) (w : Window) : SyntaxError → Prop
  | unknownEscape {k : Nat} (h : Quoted.UnknownEscapeAt w.rest k) : BodyFails place w
      ⟨.invalidLiteral, w.pos + k, place.part, "one of \\\", \\\\, \\n, \\t"⟩
  | unclosed (h : Quoted.Unclosed w.rest) :
      BodyFails place w ⟨.truncatedInput, w.stop, place.part, quoteHint⟩

/-- The ways in which a string cannot be read: its end is not found, or in front of its end some
bytes are no character. -/
inductive StringFails (place : Place) (opened : Window) : SyntaxError → Prop
  | body {e : SyntaxError} (h : BodyFails place opened e) : StringFails place opened e
  | illFormed {k : Nat} (hclosed : Quoted.Closed opened.rest)
      (hbreaks : Utf8.BreaksAt (Quoted.upToClose opened.rest) k) : StringFails place opened
      ⟨.invalidLiteral, opened.pos + k, place.part, "valid UTF-8 in the string"⟩

/-- What fails behind a sealed text fails with it, at the same place. -/
theorem BodyFails.of_takes (h : BodyFails place after e) (htakes : w.Takes text after)
    (hsealed : Quoted.Sealed text) : BodyFails place w e := by
  cases h with
  | unknownEscape h =>
      have hw := h.append hsealed
      rw [← htakes.rest_eq] at hw
      rw [htakes.pos_eq, Nat.add_assoc]
      exact .unknownEscape hw
  | unclosed h =>
      have hw := h.append hsealed
      rw [← htakes.rest_eq] at hw
      rw [htakes.stop_eq]
      exact .unclosed hw

/-- A search for the closing quote that fails comes to an unknown escape or to the end. -/
theorem fails_of_body {pos : Nat} {read bytes : List UInt8}
    (h : body place pos read bytes = .error e) : BodyFails place ⟨pos, bytes⟩ e := by
  fun_induction body place pos read bytes with
  | case1 pos read =>
      cases h
      exact .unclosed (w := ⟨pos, []⟩) (.inl .nil)
  | case2 => cases h
  | case3 pos read =>
      cases h
      exact .unclosed (w := ⟨pos, [Byte.backslash]⟩) (.inr ⟨[], rfl, .nil⟩)
  | case4 pos read b rest hb _ ih =>
      have htakes : (⟨pos, Byte.backslash :: b :: rest⟩ : Window).Takes [Byte.backslash, b]
          ⟨pos + 2, rest⟩ := ⟨rfl, rfl⟩
      obtain ⟨c, hescape⟩ := Quoted.isEscapable_iff.mp hb
      exact (ih h).of_takes htakes (.escape hescape .nil)
  | case5 pos read b rest hb _ =>
      cases h
      have hunknown : ∀ c, ¬Quoted.Escape c b :=
        fun c hescape => hb (Quoted.isEscapable_iff.mpr ⟨c, hescape⟩)
      exact .unknownEscape (w := ⟨pos, Byte.backslash :: b :: rest⟩)
        ⟨[], b, rest, rfl, .nil, hunknown, rfl⟩
  | case6 pos read b rest hquote hbackslash ih =>
      have htakes : (⟨pos, b :: rest⟩ : Window).Takes [b] ⟨pos + 1, rest⟩ := ⟨rfl, rfl⟩
      exact (ih h).of_takes htakes (.plain hquote hbackslash .nil)

/-- At an unknown escape, or without a closing quote, the search fails. -/
theorem body_of_fails {read : List UInt8} (h : BodyFails place w e) :
    body place w.pos read w.rest = .error e := by
  cases h with
  | unknownEscape h =>
      obtain ⟨front, b, rest, hrest, hsealed, hunknown, rfl⟩ := h
      have hb : ¬isEscapable b = true :=
        fun hb => (Quoted.isEscapable_iff.mp hb).elim hunknown
      rw [hrest, body_append hsealed, body, if_neg (by decide), if_pos rfl, if_neg hb]
  | unclosed h =>
      rw [Window.stop]
      rcases h with hsealed | ⟨front, hrest, hsealed⟩
      · rw [← List.append_nil w.rest, body_append hsealed, body, List.append_nil]
      · rw [hrest, body_append hsealed, body, if_neg (by decide), if_pos rfl, List.length_append,
          List.length_singleton, Nat.add_assoc]

/-- **Where the end of a string is not found.** -/
theorem body_eq_error_iff {read : List UInt8} :
    body place w.pos read w.rest = .error e ↔ BodyFails place w e :=
  ⟨fails_of_body, body_of_fails⟩

/-- A string that is closed has no unknown escape in front of its end, and has an end. -/
theorem BodyFails.not_closed (h : BodyFails place w e) : ¬Quoted.Closed w.rest := by
  rintro ⟨inner, rest, hrest, hsealed⟩
  have herror : body place w.pos [] w.rest = .error e := body_of_fails h
  rw [hrest, body_append hsealed, body_quote] at herror
  cases herror

/-- Only one thing is wrong with a string whose end is not found. -/
theorem BodyFails.unique {d : SyntaxError} (hd : BodyFails place w d) (he : BodyFails place w e) :
    d = e := by
  have hbody : body place w.pos [] w.rest = .error d := body_of_fails hd
  rw [body_of_fails he] at hbody
  exact (Except.error.inj hbody).symm

/-- There is one first unknown escape. -/
theorem unknownEscape_unique {bytes : List UInt8} {j k : Nat}
    (hj : Quoted.UnknownEscapeAt bytes j) (hk : Quoted.UnknownEscapeAt bytes k) : j = k := by
  have hfails : ∀ {i}, Quoted.UnknownEscapeAt bytes i → BodyFails .operand ⟨0, bytes⟩ _ :=
    fun hi => .unknownEscape hi
  simpa using congrArg SyntaxError.offset ((hfails hj).unique (hfails hk))

/-- A string with an unknown escape is not one that only lacks its end. -/
theorem unknownEscape_not_unclosed {bytes : List UInt8} (h : Quoted.UnknownEscapeAt bytes k) :
    ¬Quoted.Unclosed bytes := by
  intro hunclosed
  have hfails : BodyFails .operand ⟨0, bytes⟩ _ := .unknownEscape h
  cases hfails.unique (.unclosed hunclosed)

/-- No quote closes a string in front of which an unknown escape stands. -/
theorem unknownEscape_not_closed {bytes : List UInt8} (h : Quoted.UnknownEscapeAt bytes k) :
    ¬Quoted.Closed bytes := by
  have hfails : BodyFails .operand ⟨0, bytes⟩ _ := .unknownEscape h
  exact hfails.not_closed

/-- A string that lacks its end is closed by no quote. -/
theorem unclosed_not_closed {bytes : List UInt8} (h : Quoted.Unclosed bytes) :
    ¬Quoted.Closed bytes := by
  have hfails : BodyFails .operand ⟨0, bytes⟩ _ := .unclosed h
  exact hfails.not_closed

/-- **Where the reader of strings fails.** -/
theorem string_eq_error_iff : string place opened = .error e ↔ StringFails place opened e := by
  constructor
  · intro h
    unfold string at h
    split at h
    · next hbody =>
      cases h
      exact .body (fails_of_body hbody)
    · next bytes after hbody =>
      obtain ⟨_, hsealed, rfl, htakes⟩ := body_eq_ok_iff.mp hbody
      have hrest : opened.rest = bytes ++ Byte.quote :: after.rest := by
        simpa using htakes.rest_eq
      split at h
      · cases h
      · next k hdecode =>
        cases h
        refine .illFormed ⟨bytes, after.rest, hrest, hsealed⟩ ?_
        rw [hrest, Quoted.upToClose_append hsealed, Quoted.upToClose_quote]
        exact (Utf8.breaksAt_concat_iff (by decide)).mpr (Utf8.decode_eq_error_iff.mp hdecode)
  · intro h
    cases h with
    | body h => rw [string, body_of_fails h]
    | illFormed hclosed hbreaks =>
        obtain ⟨inner, rest, hrest, hsealed⟩ := hclosed
        rw [hrest, Quoted.upToClose_append hsealed, Quoted.upToClose_quote,
          Utf8.breaksAt_concat_iff (by decide)] at hbreaks
        rw [string, hrest, body_append hsealed, body_quote]
        dsimp only
        rw [List.append_nil, List.reverse_reverse, Utf8.decode_eq_error_iff.mpr hbreaks]

/-! ## Whether the first fault is told -/

/-- The error tells the first fault of a string, and a missing end only if there is no fault. -/
structure TellsFirst (opened : Window) (e : SyntaxError) : Prop where
  first : ∀ k, Quoted.FaultAt opened.rest k → (∀ j, Quoted.FaultAt opened.rest j → k ≤ j) →
    e.violation = .invalidLiteral ∧ e.offset = opened.pos + k
  truncated : e.violation = .truncatedInput → ∀ k, ¬Quoted.FaultAt opened.rest k

/-- An unknown escape is the first fault unless bytes that are no character stand in front of
it. -/
theorem tellsFirst_unknownEscape {j : Nat} {part : Part} {hint : String}
    (hj : Quoted.UnknownEscapeAt opened.rest j) :
    TellsFirst opened ⟨.invalidLiteral, opened.pos + j, part, hint⟩ ↔
      ¬Quoted.Masked opened.rest := by
  constructor
  · rintro htells ⟨k, hbreaks, ⟨i, hi, hlt⟩ | hunclosed⟩
    · obtain rfl := unknownEscape_unique hi hj
      have hfirst : ∀ l, Quoted.FaultAt opened.rest l → k ≤ l := by
        rintro l (hl | hl)
        · rw [unknownEscape_unique hl hi]
          exact Nat.le_of_lt hlt
        · exact Nat.le_of_eq (hbreaks.unique hl)
      have hoffset : opened.pos + i = opened.pos + k := (htells.first k (.inr hbreaks) hfirst).2
      omega
    · exact unknownEscape_not_unclosed hj hunclosed
  · intro hmasked
    refine ⟨?_, fun htruncated => by cases htruncated⟩
    rintro k (hk | hbreaks) hfirst
    · rw [unknownEscape_unique hk hj]
      exact ⟨rfl, rfl⟩
    · have hnot : ¬k < j := fun hlt => hmasked ⟨k, hbreaks, .inl ⟨j, hj, hlt⟩⟩
      have hkj : k = j := Nat.le_antisymm (hfirst j (.inl hj)) (Nat.le_of_not_lt hnot)
      rw [hkj]
      exact ⟨rfl, rfl⟩

/-- A missing end is the only fault unless some bytes are no character. -/
theorem tellsFirst_unclosed {offset : Nat} {part : Part} {hint : String}
    (h : Quoted.Unclosed opened.rest) :
    TellsFirst opened ⟨.truncatedInput, offset, part, hint⟩ ↔ ¬Quoted.Masked opened.rest := by
  constructor
  · rintro htells ⟨k, hbreaks, -⟩
    exact htells.truncated rfl k (.inr hbreaks)
  · intro hmasked
    have hclean : ∀ k, ¬Quoted.FaultAt opened.rest k := by
      rintro k (hk | hbreaks)
      · exact unknownEscape_not_unclosed hk h
      · exact hmasked ⟨k, hbreaks, .inr h⟩
    exact ⟨fun k hk => absurd hk (hclean k), fun _ => hclean⟩

/-- In front of a closing quote nothing is masked. -/
theorem not_masked_of_closed (h : Quoted.Closed opened.rest) : ¬Quoted.Masked opened.rest := by
  rintro ⟨-, -, ⟨j, hj, -⟩ | hunclosed⟩
  · exact unknownEscape_not_closed hj h
  · exact unclosed_not_closed hunclosed h

/-- Bytes that are no character are the first fault of a string that is closed. -/
theorem tellsFirst_illFormed {part : Part} {hint : String} (hclosed : Quoted.Closed opened.rest)
    (hbreaks : Utf8.BreaksAt (Quoted.upToClose opened.rest) k) :
    TellsFirst opened ⟨.invalidLiteral, opened.pos + k, part, hint⟩ := by
  refine ⟨?_, fun htruncated => by cases htruncated⟩
  rintro l (hl | hl) -
  · exact absurd hclosed (unknownEscape_not_closed hl)
  · rw [hbreaks.unique hl]
    exact ⟨rfl, rfl⟩

/-- **The first fault is told unless it is masked.** -/
theorem StringFails.tellsFirst_iff (h : StringFails place opened e) :
    TellsFirst opened e ↔ ¬Quoted.Masked opened.rest := by
  cases h with
  | body h =>
      cases h with
      | unknownEscape h => exact tellsFirst_unknownEscape h
      | unclosed h => exact tellsFirst_unclosed h
  | illFormed hclosed hbreaks =>
      exact iff_of_true (tellsFirst_illFormed hclosed hbreaks) (not_masked_of_closed hclosed)

end Failures

end Literal

end RecordFilter
