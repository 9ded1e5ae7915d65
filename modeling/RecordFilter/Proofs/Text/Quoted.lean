import RecordFilter.Reading.Literal
import RecordFilter.Proofs.Text.Utf8

/-!
# String bodies, byte by byte and character by character

The reader of a string finds its end on bytes and decodes its body on characters.  The
two meet in `Sealed`, the bodies that no quote closes and in which every backslash is
followed by a byte that it may escape: ASCII bytes stand for themselves in UTF-8, so a
sealed body that is UTF-8 at all writes the text that unescaping its characters gives.

* `legible_of_sealed`, `Legible.writes` — the characters of a sealed body, and what they write;
* `body_eq_ok_iff` — the search for the closing quote finds exactly the sealed bodies;
* `string_eq_ok_iff` — the string reader accepts exactly what `Quoted.Writes` writes.
-/

namespace RecordFilter

namespace Quoted

/-- No byte of the body closes it, and every backslash starts an escape. -/
inductive Sealed : List UInt8 → Prop
  | nil : Sealed []
  | plain {b : UInt8} {body : List UInt8} (hquote : b ≠ Byte.quote)
      (hbackslash : b ≠ Byte.backslash) (tail : Sealed body) : Sealed (b :: body)
  | escape {c : Char} {b : UInt8} {body : List UInt8} (hescape : Escape c b)
      (tail : Sealed body) : Sealed (Byte.backslash :: b :: body)

/-- The reader takes a byte behind a backslash if and only if the byte names a character. -/
theorem isEscapable_iff {b : UInt8} : Literal.isEscapable b = true ↔ ∃ c, Escape c b := by
  simp only [Literal.isEscapable, Bool.or_eq_true, beq_iff_eq]
  constructor
  · rintro (((rfl | rfl) | rfl) | rfl)
    · exact ⟨_, .quote⟩
    · exact ⟨_, .backslash⟩
    · exact ⟨_, .lineFeed⟩
    · exact ⟨_, .tab⟩
  · rintro ⟨c, hescape⟩
    cases hescape <;> decide

/-- The byte of an escape is one character, which unescaping turns into the one meant. -/
theorem Escape.char {c : Char} {b : UInt8} (h : Escape c b) :
    String.utf8EncodeChar (Char.ofUInt8 b) = [b] ∧ escaped (Char.ofUInt8 b) = c := by
  cases h <;> decide

/-- Sealed bodies are sealed one behind the other. -/
theorem Sealed.append {front rest : List UInt8} (hfront : Sealed front) (hrest : Sealed rest) :
    Sealed (front ++ rest) := by
  induction hfront with
  | nil => exact hrest
  | plain hquote hbackslash _ ih => exact .plain hquote hbackslash ih
  | escape hescape _ ih => exact .escape hescape ih

/-- A body without quotes and backslashes is sealed. -/
theorem sealed_of_plain {s : List UInt8}
    (hs : ∀ b ∈ s, b ≠ Byte.quote ∧ b ≠ Byte.backslash) : Sealed s := by
  induction s with
  | nil => exact .nil
  | cons b s ih =>
      have hb := hs b List.mem_cons_self
      exact .plain hb.1 hb.2 (ih fun d hd => hs d (List.mem_cons_of_mem b hd))

/-- Bytes without quotes and backslashes seal nothing that follows. -/
theorem Sealed.of_append_plain {s body : List UInt8}
    (hs : ∀ b ∈ s, b ≠ Byte.quote ∧ b ≠ Byte.backslash) (h : Sealed (s ++ body)) :
    Sealed body := by
  induction s with
  | nil => exact h
  | cons b s ih =>
      rw [List.cons_append] at h
      generalize hrest : s ++ body = rest at h
      cases h with
      | plain _ _ tail =>
          exact ih (fun d hd => hs d (List.mem_cons_of_mem b hd)) (hrest ▸ tail)
      | escape _ _ => exact absurd rfl (hs _ List.mem_cons_self).2

/-- A character that is neither a quote nor a backslash has neither among its bytes. -/
theorem plain_of_mem_encodeChar {c : Char} (hquote : c ≠ '"') (hbackslash : c ≠ '\\') :
    ∀ b ∈ String.utf8EncodeChar c, b ≠ Byte.quote ∧ b ≠ Byte.backslash := by
  intro b hb
  refine ⟨?_, ?_⟩
  · intro heq
    subst heq
    have hc := (Utf8.encodeChar_of_mem_of_lt hb (by decide)).2
    exact hquote (Char.toNat_inj.mp hc)
  · intro heq
    subst heq
    have hc := (Utf8.encodeChar_of_mem_of_lt hb (by decide)).2
    exact hbackslash (Char.toNat_inj.mp hc)

/-- What writes a text is sealed. -/
theorem Writes.sealed {text : List Char} {body : List UInt8} (h : Writes text body) :
    Sealed body := by
  induction h with
  | nil => exact .nil
  | plain hquote hbackslash _ ih =>
      exact (sealed_of_plain (plain_of_mem_encodeChar hquote hbackslash)).append ih
  | escape hescape _ ih => exact .escape hescape ih

/-- A character that is no backslash stands for itself. -/
theorem unescape_cons {c : Char} (h : c ≠ '\\') (raw : List Char) :
    unescape (c :: raw) = c :: unescape raw := by
  cases raw with
  | nil => simp [unescape, h]
  | cons d raw => rw [unescape, if_neg h]

/-- A backslash takes the next character with it. -/
theorem unescape_backslash (c : Char) (raw : List Char) :
    unescape ('\\' :: c :: raw) = escaped c :: unescape raw := by
  rw [unescape, if_pos rfl]

/-- What a body writes is what unescaping its characters gives. -/
theorem Writes.exists_raw {text : List Char} {body : List UInt8} (h : Writes text body) :
    ∃ raw : List Char, body = raw.flatMap String.utf8EncodeChar ∧ unescape raw = text := by
  induction h with
  | nil => exact ⟨[], rfl, rfl⟩
  | @plain c _ _ hquote hbackslash _ ih =>
      obtain ⟨raw, rfl, rfl⟩ := ih
      exact ⟨c :: raw, List.flatMap_cons.symm, unescape_cons hbackslash raw⟩
  | @escape c b _ _ hescape _ ih =>
      obtain ⟨raw, rfl, rfl⟩ := ih
      obtain ⟨hbyte, hchar⟩ := hescape.char
      refine ⟨'\\' :: Char.ofUInt8 b :: raw, ?_, ?_⟩
      · rw [List.flatMap_cons, List.flatMap_cons, hbyte]
        rfl
      · rw [unescape_backslash, hchar]

/-- The characters of a body: a quote or a backslash only as part of an escape. -/
inductive Legible : List Char → Prop
  | nil : Legible []
  | plain {c : Char} {raw : List Char} (hquote : c ≠ '"') (hbackslash : c ≠ '\\')
      (tail : Legible raw) : Legible (c :: raw)
  | escape {c : Char} {b : UInt8} {raw : List Char} (hescape : Escape c b)
      (tail : Legible raw) : Legible ('\\' :: Char.ofUInt8 b :: raw)

/-- The byte that a backslash escapes is a character of its own. -/
theorem Sealed.exists_escaped {raw : List Char}
    (h : Sealed (('\\' :: raw).flatMap String.utf8EncodeChar)) :
    ∃ c b rest, raw = Char.ofUInt8 b :: rest ∧ Escape c b ∧
      Sealed (rest.flatMap String.utf8EncodeChar) := by
  change Sealed (Byte.backslash :: raw.flatMap String.utf8EncodeChar) at h
  generalize hrest : raw.flatMap String.utf8EncodeChar = rest at h
  cases h with
  | plain _ hne _ => exact absurd rfl hne
  | @escape d b body hescape tail =>
    cases raw with
    | nil => cases hrest
    | cons e raw =>
      rw [List.flatMap_cons] at hrest
      obtain ⟨first, more, hfirst⟩ :=
        List.exists_cons_of_ne_nil (String.utf8EncodeChar_ne_nil (c := e))
      have hb' : first = b := by
        rw [hfirst] at hrest
        exact (List.cons.inj hrest).1
      have hmem : b ∈ String.utf8EncodeChar e := by
        rw [hfirst, hb']
        exact List.mem_cons_self
      have hlt : b.toNat < 128 := by cases hescape <;> decide
      obtain ⟨hone, hnat⟩ := Utf8.encodeChar_of_mem_of_lt hmem hlt
      have he : e = Char.ofUInt8 b := Char.toNat_inj.mp hnat
      rw [hone] at hrest
      have hbody : raw.flatMap String.utf8EncodeChar = body := (List.cons.inj hrest).2
      rw [← hbody] at tail
      exact ⟨d, b, raw, by rw [he], hescape, tail⟩

/-- The characters of a sealed body are those of a body. -/
theorem legible_of_sealed {raw : List Char} (h : Sealed (raw.flatMap String.utf8EncodeChar)) :
    Legible raw := by
  induction hn : raw.length using Nat.strongRecOn generalizing raw with
  | ind n ih =>
      cases raw with
      | nil => exact .nil
      | cons c raw =>
        by_cases hbackslash : c = '\\'
        · subst hbackslash
          obtain ⟨d, b, rest, rfl, hescape, htail⟩ := h.exists_escaped
          exact .escape hescape (ih rest.length (by simp at hn; omega) htail rfl)
        · rw [List.flatMap_cons] at h
          have hquote : c ≠ '"' := by
            intro heq
            subst heq
            change Sealed (Byte.quote :: raw.flatMap String.utf8EncodeChar) at h
            cases h with
            | plain hne _ _ => exact hne rfl
          have htail := h.of_append_plain (plain_of_mem_encodeChar hquote hbackslash)
          exact .plain hquote hbackslash (ih raw.length (by simp at hn; omega) htail rfl)

/-- The characters of a body write the text that they are unescaped to. -/
theorem Legible.writes {raw : List Char} (h : Legible raw) :
    Writes (unescape raw) (raw.flatMap String.utf8EncodeChar) := by
  induction h with
  | nil => exact .nil
  | plain hquote hbackslash _ ih =>
      rw [unescape_cons hbackslash, List.flatMap_cons]
      exact .plain hquote hbackslash ih
  | escape hescape _ ih =>
      obtain ⟨hbyte, hchar⟩ := hescape.char
      rw [unescape_backslash, List.flatMap_cons, List.flatMap_cons, hbyte, hchar]
      exact .escape hescape ih

/-- Whether a body without a backslash is unescaped makes no difference. -/
theorem ite_unescape (raw : List Char) :
    (if Byte.backslash ∈ raw.flatMap String.utf8EncodeChar then unescape raw else raw) =
      unescape raw := by
  split
  · rfl
  · next hplain =>
    refine (unescape_eq_self fun hmem => hplain ?_).symm
    exact List.mem_flatMap.mpr ⟨'\\', hmem, List.mem_singleton.mpr rfl⟩

/-- A sealed body that is UTF-8 writes its text, unescaped. -/
theorem writes_of_sealed {raw : List Char}
    (h : Sealed (raw.flatMap String.utf8EncodeChar)) :
    Writes (unescape raw) (raw.flatMap String.utf8EncodeChar) :=
  (legible_of_sealed h).writes

end Quoted

namespace Literal

variable {place : Place}

/-- The search ends behind a quote. -/
theorem body_quote (pos : Nat) (read rest : List UInt8) :
    body place pos read (Byte.quote :: rest) = .ok (read.reverse, ⟨pos + 1, rest⟩) := by
  unfold body
  rw [if_pos rfl]

/-- The search goes on behind a byte that is neither a quote nor a backslash. -/
theorem body_plain {b : UInt8} (hquote : b ≠ Byte.quote) (hbackslash : b ≠ Byte.backslash)
    (pos : Nat) (read rest : List UInt8) :
    body place pos read (b :: rest) = body place (pos + 1) (b :: read) rest := by
  conv => lhs; unfold body
  rw [if_neg hquote, if_neg hbackslash]

/-- The search goes on behind an escape. -/
theorem body_escape {b : UInt8} (hb : isEscapable b = true) (pos : Nat)
    (read rest : List UInt8) :
    body place pos read (Byte.backslash :: b :: rest) =
      body place (pos + 2) (b :: Byte.backslash :: read) rest := by
  conv => lhs; unfold body
  rw [if_neg (by decide), if_pos rfl]
  dsimp only
  rw [if_pos hb]

/-- The search for the closing quote goes on behind a sealed front. -/
theorem body_append {front : List UInt8} (h : Quoted.Sealed front) (pos : Nat)
    (read rest : List UInt8) :
    body place pos read (front ++ rest) =
      body place (pos + front.length) (front.reverse ++ read) rest := by
  induction h generalizing pos read with
  | nil => rfl
  | plain hquote hbackslash _ ih =>
      rw [List.cons_append, body_plain hquote hbackslash, ih]
      simp [Nat.add_assoc, Nat.add_comm 1]
  | escape hescape _ ih =>
      have hb := Quoted.isEscapable_iff.mpr ⟨_, hescape⟩
      rw [List.cons_append, List.cons_append, body_escape hb, ih]
      simp [Nat.add_assoc, Nat.add_comm 2]

/-- **The search for the closing quote.**  It stops behind the first quote that no
backslash hides, and finds exactly the sealed bodies. -/
theorem body_eq_ok_iff {pos : Nat} {read bytes content : List UInt8} {after : Window} :
    body place pos read bytes = .ok (content, after) ↔
      ∃ inner, Quoted.Sealed inner ∧ content = read.reverse ++ inner ∧
        (⟨pos, bytes⟩ : Window).Takes (inner ++ [Byte.quote]) after := by
  constructor
  · intro h
    fun_induction body place pos read bytes with
    | case1 => cases h
    | case2 pos read rest =>
        cases h
        exact ⟨[], .nil, by simp, rfl, rfl⟩
    | case3 => cases h
    | case4 pos read e rest hescapable _ ih =>
        obtain ⟨inner, hsealed, rfl, hrest, hpos⟩ := ih h
        obtain ⟨c, hescape⟩ := Quoted.isEscapable_iff.mp hescapable
        refine ⟨Byte.backslash :: e :: inner, .escape hescape hsealed, by simp, ?_, ?_⟩
        · simpa using hrest
        · simp only [List.cons_append, List.length_cons] at hpos ⊢
          omega
    | case5 => cases h
    | case6 pos read b rest hquote hbackslash ih =>
        obtain ⟨inner, hsealed, rfl, hrest, hpos⟩ := ih h
        refine ⟨b :: inner, .plain hquote hbackslash hsealed, by simp, ?_, ?_⟩
        · simpa using hrest
        · simp only [List.cons_append, List.length_cons] at hpos ⊢
          omega
  · rintro ⟨inner, hsealed, rfl, hrest, hpos⟩
    have hbytes : bytes = inner ++ Byte.quote :: after.rest := by
      rw [← List.singleton_append, ← List.append_assoc]
      exact hrest
    have hafter : (⟨pos + inner.length + 1, after.rest⟩ : Window) = after := by
      rw [List.length_append, List.length_singleton, ← Nat.add_assoc] at hpos
      rw [← hpos]
    rw [hbytes, body_append hsealed, body_quote, hafter, List.reverse_append,
      List.reverse_reverse]

/-- **The string reader, exactly.**  It reads what is written up to the closing quote. -/
theorem string_eq_ok_iff {opened after : Window} {value : Value} :
    string place opened = .ok (value, after) ↔
      ∃ text bytes, Quoted.Writes text bytes ∧ value = .string (String.ofList text) ∧
        opened.Takes (bytes ++ [Byte.quote]) after := by
  unfold string
  constructor
  · intro h
    split at h
    · cases h
    · next bytes after' hbody =>
      obtain ⟨inner, hsealed, hbytes, htakes⟩ := body_eq_ok_iff.mp hbody
      rw [List.reverse_nil, List.nil_append] at hbytes
      subst hbytes
      split at h
      · next raw hdecode =>
        cases h
        have hraw := Utf8.decode_eq_ok_iff.mp hdecode
        subst hraw
        rw [Quoted.ite_unescape]
        exact ⟨_, _, Quoted.writes_of_sealed hsealed, rfl, htakes⟩
      · cases h
  · intro h
    obtain ⟨text, bytes, hwrites, rfl, htakes⟩ := h
    have hbody : body place opened.pos [] opened.rest = .ok (bytes, after) :=
      body_eq_ok_iff.mpr ⟨bytes, hwrites.sealed, rfl, htakes⟩
    obtain ⟨raw, hraw, rfl⟩ := hwrites.exists_raw
    have hdecode : Utf8.decode bytes = .ok raw := Utf8.decode_eq_ok_iff.mpr hraw
    rw [hbody]
    dsimp only
    rw [hdecode]
    dsimp only
    rw [hraw, Quoted.ite_unescape]

end Literal

end RecordFilter
