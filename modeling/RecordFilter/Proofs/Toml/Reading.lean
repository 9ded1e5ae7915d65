import Mathlib.Data.List.Basic
import RecordFilter.Proofs.Toml.Grammar

/-!
# Numbers and keys are read as their grammar says

Numbers and keys are read by one function each, and for each form of them there is one lemma:
the function gives what the form means, and leaves what follows.  Numbers are read whole.  A
key ends with its last quote; a bare one must not be followed by a character with which it
would go on.

* `digits?_of_digits`, `integer?_of_integer` — numbers in any spelling;
* `escape?_of_escape`, `quotedKey?_of_body` — what stands between double quotes;
* `key?_of_key` — keys.
-/

namespace RecordFilter.Toml

variable {base n value d : Nat} {c : Char} {cs rest text name : List Char}

/-! ## Numbers -/

/-- What holds of the sixteen digits in either case holds of every digit. -/
theorem IsDigit.of_forall {P : Char → Nat → Prop} (h : IsDigit base c d)
    (hlower : ∀ i : Fin 16, P ("0123456789abcdef".toList[i]) i)
    (hupper : ∀ i : Fin 16, P ("0123456789ABCDEF".toList[i]) i) : P c d := by
  obtain ⟨-, h | h⟩ := h
  · obtain ⟨hd, rfl⟩ := List.getElem?_eq_some_iff.mp h
    exact hlower ⟨d, hd⟩
  · obtain ⟨hd, rfl⟩ := List.getElem?_eq_some_iff.mp h
    exact hupper ⟨d, hd⟩

/-- A digit is read as its number. -/
theorem digit?_of_isDigit (h : IsDigit base c d) : digit? c = some d :=
  h.of_forall (P := fun c d => digit? c = some d) (by decide) (by decide)

/-- Digits may stand in bare keys. -/
theorem IsDigit.isBareKeyChar (h : IsDigit base c d) : isBareKeyChar c = true :=
  h.of_forall (P := fun c _ => Toml.isBareKeyChar c = true) (by decide) (by decide)

/-- A digit behind a number is added to it. -/
theorem appendDigit?_of_isDigit (h : IsDigit base c d) (value : Nat) :
    appendDigit? base value c = some (base * value + d) := by
  rw [appendDigit?, digit?_of_isDigit h]
  exact if_pos h.1

/-- An underscore is no digit. -/
theorem ne_underscore_of_appendDigit? (h : appendDigit? base value c = some n) : c ≠ '_' := by
  rintro rfl
  cases h

/-- A character that is no underscore is read as a digit. -/
theorem digitsFrom?_cons (h : c ≠ '_') (base value : Nat) (cs : List Char) :
    digitsFrom? base value (c :: cs) =
      (appendDigit? base value c).bind fun n => digitsFrom? base n cs := by
  rw [digitsFrom?.eq_3 _ _ _ _ fun _ _ hc => absurd hc h]
  rfl

/-- Reading digits goes on behind what was read. -/
theorem digitsFrom?_append (h : digitsFrom? base value cs = some n) (rest : List Char) :
    digitsFrom? base value (cs ++ rest) = digitsFrom? base n rest := by
  fun_induction digitsFrom? base value cs with
  | case1 value => rw [List.nil_append, Option.some.inj h]
  | case2 value c cs ih =>
      obtain ⟨m, hm, hread⟩ := Option.bind_eq_some_iff.mp h
      rw [List.cons_append, List.cons_append, digitsFrom?, hm]
      exact ih m hread
  | case3 value c cs hne ih =>
      obtain ⟨m, hm, hread⟩ := Option.bind_eq_some_iff.mp h
      rw [List.cons_append, digitsFrom?_cons (ne_underscore_of_appendDigit? hm), hm]
      exact ih m hread

/-- The first of some digits starts the number, and the others are read behind it. -/
theorem Digits.exists_first (h : Digits base cs n) :
    ∃ c rest d, cs = c :: rest ∧ appendDigit? base 0 c = some d ∧
      digitsFrom? base d rest = some n := by
  induction h with
  | @one c d hdigit =>
      have hfirst := appendDigit?_of_isDigit hdigit 0
      rw [Nat.mul_zero, Nat.zero_add] at hfirst
      exact ⟨c, [], d, rfl, hfirst, by rw [digitsFrom?]⟩
  | @next cs n c d hfront hdigit ih =>
      obtain ⟨first, rest, start, rfl, hfirst, hrest⟩ := ih
      have hlast := appendDigit?_of_isDigit hdigit
      refine ⟨first, rest ++ [c], start, List.cons_append, hfirst, ?_⟩
      rw [digitsFrom?_append hrest,
        digitsFrom?_cons (ne_underscore_of_appendDigit? (hlast 0)), hlast]
      rw [Option.bind_some, digitsFrom?]
  | @spaced cs n c d hfront hdigit ih =>
      obtain ⟨first, rest, start, rfl, hfirst, hrest⟩ := ih
      refine ⟨first, rest ++ ['_', c], start, List.cons_append, hfirst, ?_⟩
      rw [digitsFrom?_append hrest, digitsFrom?, appendDigit?_of_isDigit hdigit]
      exact digitsFrom?.eq_1 base (base * n + d)

/-- **Digits are read to the number they write.** -/
theorem digits?_of_digits (h : Digits base cs n) : digits? base cs = some n := by
  obtain ⟨c, rest, d, rfl, hfirst, hrest⟩ := h.exists_first
  rw [digits?, hfirst]
  exact hrest

/-- A decimal number is read to what it writes. -/
theorem decimal?_of_decimal (h : Decimal cs n) : decimal? cs = some n := by
  cases h with
  | zero => rfl
  | positive hdigits hleading =>
      rw [decimal?]
      · exact digits?_of_digits hdigits
      all_goals simp_all

/-- **Every spelling of a whole number is read to it.** -/
theorem integer?_of_integer (h : Integer cs n) : integer? cs = some n := by
  cases h with
  | decimal h =>
      rw [← decimal?_of_decimal h]
      cases h with
      | zero => rfl
      | @positive c cs n hdigits hleading =>
          obtain ⟨first, rest, d, hcs, hfirst, -⟩ := hdigits.exists_first
          rw [← (List.cons.inj hcs).1] at hfirst
          have hplus : c ≠ '+' := by
            rintro rfl
            cases hfirst
          have hminus : c ≠ '-' := by
            rintro rfl
            cases hfirst
          rw [integer?]
          all_goals simp_all
  | plus h => exact decimal?_of_decimal h
  | minusZero => rfl
  | hexadecimal h => exact digits?_of_digits h
  | octal h => exact digits?_of_digits h
  | binary h => exact digits?_of_digits h

/-! ## Keys -/

/-- Without underscores the digits can be read one by one. -/
theorem Digits.foldlM_eq (h : Digits base cs n) (hplain : '_' ∉ cs) :
    cs.foldlM (appendDigit? base) 0 = some n := by
  induction h with
  | one hdigit =>
      have hfirst := appendDigit?_of_isDigit hdigit 0
      rw [Nat.mul_zero, Nat.zero_add] at hfirst
      rw [List.foldlM_cons, hfirst]
      rfl
  | next hfront hdigit ih =>
      rw [List.mem_append, not_or] at hplain
      rw [List.foldlM_append, ih hplain.1, Option.bind_eq_bind, Option.bind_some,
        List.foldlM_cons, appendDigit?_of_isDigit hdigit]
      rfl
  | spaced hfront hdigit ih => simp at hplain

/-- The digits of a code are read to the character that has it. -/
theorem codePoint?_of_digits {count : Nat} (h : Digits 16 cs n) (hplain : '_' ∉ cs)
    (hlength : cs.length = count) (hvalid : n.isValidChar) (rest : List Char) :
    codePoint? count (cs ++ rest) = some (Char.ofNat n, rest) := by
  have htake : (cs ++ rest).take count = cs := by rw [← hlength, List.take_left]
  have hdrop : (cs ++ rest).drop count = rest := by rw [← hlength, List.drop_left]
  rw [codePoint?, htake, hdrop, h.foldlM_eq hplain]
  exact if_pos ⟨hlength, hvalid⟩

/-- An escape is read to the character that is meant. -/
theorem escape?_of_escape {mark : List Char} (h : Escape mark c) (rest : List Char) :
    escape? (mark ++ rest) = some (c, rest) := by
  cases h with
  | named h =>
      simp only [List.mem_cons, Prod.mk.injEq, List.not_mem_nil, or_false] at h
      rcases h with ⟨rfl, rfl⟩ | ⟨rfl, rfl⟩ | ⟨rfl, rfl⟩ | ⟨rfl, rfl⟩ | ⟨rfl, rfl⟩ |
        ⟨rfl, rfl⟩ | ⟨rfl, rfl⟩ <;> rfl
  | short hdigits hplain hlength hvalid =>
      exact codePoint?_of_digits hdigits hplain hlength hvalid rest
  | long hdigits hplain hlength hvalid =>
      exact codePoint?_of_digits hdigits hplain hlength hvalid rest

/-- **The name between double quotes**, read behind the characters that are read already. -/
theorem quotedKey?_of_body (h : QuotedBody text name) (read rest : List Char) :
    quotedKey? read (text ++ '"' :: rest) = some (read.reverse ++ name, rest) := by
  induction h generalizing read with
  | empty =>
      rw [List.nil_append, quotedKey?, List.append_nil]
  | plain hplain hquote hbackslash hrest ih =>
      rw [List.cons_append, quotedKey?, if_pos hplain, ih, List.reverse_cons, List.append_assoc]
      · rfl
      · exact hquote
      · exact hbackslash
  | @escape mark text name c hescape hrest ih =>
      have hread := escape?_of_escape hescape (text ++ '"' :: rest)
      rw [List.cons_append, List.append_assoc, quotedKey?]
      split
      · next hnone =>
          rw [hread] at hnone
          cases hnone
      · next d tail hsome =>
          rw [hread] at hsome
          obtain ⟨rfl, rfl⟩ := Prod.mk.inj (Option.some.inj hsome)
          rw [ih, List.reverse_cons, List.append_assoc]
          rfl

/-- What holds of a character holds of the first of a list that it starts. -/
theorem forall_head_cons {P : Char → Prop} (h : P c) : ∀ d ∈ (c :: cs).head?, P d := by
  intro d hd
  obtain rfl := Option.some.inj hd
  exact h

/-- A run of characters of a class ends where the class does. -/
theorem takeWhile_run {p : Char → Bool} (hall : ∀ c ∈ cs, p c = true)
    (hrest : ∀ c ∈ rest.head?, p c = false) : (cs ++ rest).takeWhile p = cs := by
  rw [List.takeWhile_append_of_pos hall]
  cases rest with
  | nil => exact List.append_nil cs
  | cons c rest =>
      have hc : ¬p c = true := by simp [hrest c rfl]
      rw [List.takeWhile_cons_of_neg hc, List.append_nil]

/-- A run that ends is dropped as a whole. -/
theorem dropWhile_run {p : Char → Bool} (hall : ∀ c ∈ cs, p c = true)
    (hrest : ∀ c ∈ rest.head?, p c = false) : (cs ++ rest).dropWhile p = rest := by
  have hsplit := List.takeWhile_append_dropWhile (p := p) (l := cs ++ rest)
  rw [takeWhile_run hall hrest] at hsplit
  exact List.append_cancel_left hsplit

/-- **A key is read to its name**, unless a bare key goes on behind it. -/
theorem key?_of_key {key : List Char} (h : Key key name)
    (hrest : ∀ c ∈ rest.head?, isBareKeyChar c = false) :
    key? (key ++ rest) = some (name, rest) := by
  cases h with
  | bare hne hall =>
      have hrun := takeWhile_run hall hrest
      have hdrop : (name ++ rest).drop name.length = rest := List.drop_left
      obtain ⟨c, cs, rfl⟩ := List.exists_cons_of_ne_nil hne
      have hc : isBareKeyChar c = true := hall c List.mem_cons_self
      rw [List.cons_append] at hrun hdrop ⊢
      rw [key?]
      · rw [hrun, hdrop]
        rfl
      all_goals
        intro tail heq
        obtain ⟨rfl, -⟩ := List.cons.inj heq
        cases hc
  | literal hall =>
      have hrun : (name ++ '\'' :: rest).takeWhile (fun c => isPlain c && c != '\'') = name := by
        apply takeWhile_run
        · intro c hc
          obtain ⟨hplain, hne⟩ := hall c hc
          simp [hplain, hne]
        · simp
      have hdrop : (name ++ '\'' :: rest).drop name.length = '\'' :: rest := List.drop_left
      rw [List.cons_append, List.append_assoc, List.singleton_append, key?, hrun, hdrop]
      rfl
  | quoted hbody =>
      rw [List.cons_append, List.append_assoc, key?]
      exact quotedKey?_of_body hbody [] rest

end RecordFilter.Toml
