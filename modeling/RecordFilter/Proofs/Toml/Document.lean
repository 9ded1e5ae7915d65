import Mathlib.Data.List.DropRight
import RecordFilter.Proofs.Text.Digits
import RecordFilter.Proofs.Toml.Reading

/-!
# Documents are read as their grammar says

A line holds no control character but the tab, so nothing in a line looks like the end of it,
and a document falls into its lines.  A line that assigns starts with its key, and what is
behind the equals sign up to the next blank or comment is its number.

* `Line.isPlain` — the characters of a line;
* `assignment?_of_key` — a line that assigns;
* `assignmentsOfLines?_of_document` — the lines of a document;
* `assignments?_of_document` — a document without a key that is assigned twice.
-/

namespace RecordFilter.Toml

variable {base n value : Nat} {c : Char} {cs rest text name key line : List Char}
  {as : List Assignment}

/-! ## Characters -/

theorem isPlain_iff : isPlain c = true ↔ c = '\t' ∨ (0x20 ≤ c.toNat ∧ c.toNat ≠ 0x7F) := by
  simp [isPlain]

theorem isBlank_iff : isBlank c = true ↔ c = ' ' ∨ c = '\t' := by
  simp [isBlank]

theorem isPlain_of_isBlank (h : isBlank c = true) : isPlain c = true := by
  rcases isBlank_iff.mp h with rfl | rfl <;> rfl

/-- What is visible is no blank. -/
theorem not_isBlank_of_lt (h : 0x20 < c.toNat) : isBlank c = false := by
  by_contra hblank
  rw [Bool.not_eq_false, isBlank_iff] at hblank
  rcases hblank with rfl | rfl <;> exact absurd h (by decide)

/-- A character of a bare key is visible ASCII. -/
theorem toNat_of_isBareKeyChar (h : isBareKeyChar c = true) :
    0x2D ≤ c.toNat ∧ c.toNat < 0x7F := by
  rw [isBareKeyChar, Char.isAlphanum, Bool.or_eq_true, Bool.or_eq_true, Bool.or_eq_true,
    isAlpha_iff, isDigit_iff, beq_iff_eq, beq_iff_eq] at h
  rcases h with (((h | h) | h) | rfl) | rfl
  · omega
  · omega
  · omega
  · decide
  · decide

/-- A character that numbers are spelt with: one of a bare key, or a plus. -/
def IsNumeral (c : Char) : Prop := isBareKeyChar c = true ∨ c = '+'

/-- A character of a number is visible ASCII. -/
theorem IsNumeral.toNat (h : IsNumeral c) : 0x2B ≤ c.toNat ∧ c.toNat < 0x7F := by
  rcases h with h | rfl
  · have hrange := toNat_of_isBareKeyChar h
    omega
  · decide

theorem IsNumeral.isPlain (h : IsNumeral c) : isPlain c = true := by
  have hrange := h.toNat
  exact isPlain_iff.mpr (.inr (by omega))

/-- Such a character ends no number. -/
theorem IsNumeral.goesOn (h : IsNumeral c) : (!isBlank c && c != '#') = true := by
  have hrange := h.toNat
  rw [not_isBlank_of_lt (by omega), Bool.not_false, Bool.true_and, bne_iff_ne]
  rintro rfl
  exact absurd hrange (by decide)

/-- Digits are made of characters of numbers, underscores included. -/
theorem Digits.isNumeral (h : Digits base cs n) : ∀ c ∈ cs, IsNumeral c := by
  induction h with
  | one hdigit => exact List.forall_mem_singleton.mpr (.inl hdigit.isBareKeyChar)
  | next hfront hdigit ih =>
      exact List.forall_mem_append.mpr
        ⟨ih, List.forall_mem_singleton.mpr (.inl hdigit.isBareKeyChar)⟩
  | spaced hfront hdigit ih =>
      exact List.forall_mem_append.mpr ⟨ih, List.forall_mem_cons.mpr
        ⟨.inl rfl, List.forall_mem_singleton.mpr (.inl hdigit.isBareKeyChar)⟩⟩

theorem Decimal.isNumeral (h : Decimal cs n) : ∀ c ∈ cs, IsNumeral c := by
  cases h with
  | zero => exact List.forall_mem_singleton.mpr (.inl rfl)
  | positive hdigits hleading => exact hdigits.isNumeral

/-- Every spelling of a whole number is made of characters of numbers. -/
theorem Integer.isNumeral (h : Integer cs n) : ∀ c ∈ cs, IsNumeral c := by
  cases h with
  | decimal h => exact h.isNumeral
  | minusZero =>
      exact List.forall_mem_cons.mpr ⟨.inl rfl, List.forall_mem_singleton.mpr (.inl rfl)⟩
  | plus h => exact List.forall_mem_cons.mpr ⟨.inr rfl, h.isNumeral⟩
  | hexadecimal h | octal h | binary h =>
      exact List.forall_mem_cons.mpr
        ⟨.inl rfl, List.forall_mem_cons.mpr ⟨.inl rfl, h.isNumeral⟩⟩

theorem Integer.ne_nil (h : Integer cs n) : cs ≠ [] := by
  rintro rfl
  have hread := integer?_of_integer h
  cases hread

/-- The characters of an escape are plain. -/
theorem Escape.isPlain {mark : List Char} (h : Escape mark c) :
    ∀ d ∈ mark, isPlain d = true := by
  cases h with
  | @named mark c h =>
      have hall : [('b', '\x08'), ('t', '\t'), ('n', '\n'), ('f', '\x0c'), ('r', '\r'),
          ('"', '"'), ('\\', '\\')].all (fun entry => Toml.isPlain entry.1) = true := rfl
      exact List.forall_mem_singleton.mpr (List.all_eq_true.mp hall (mark, c) h)
  | short hdigits | long hdigits =>
      exact List.forall_mem_cons.mpr
        ⟨rfl, fun d hd => (hdigits.isNumeral d hd).isPlain⟩

theorem QuotedBody.isPlain (h : QuotedBody text name) : ∀ c ∈ text, isPlain c = true := by
  induction h with
  | empty => simp
  | plain hplain hquote hbackslash hrest ih => exact List.forall_mem_cons.mpr ⟨hplain, ih⟩
  | escape hescape hrest ih =>
      exact List.forall_mem_cons.mpr
        ⟨rfl, List.forall_mem_append.mpr ⟨hescape.isPlain, ih⟩⟩

/-- The characters of a key are plain. -/
theorem Key.isPlain (h : Key key name) : ∀ c ∈ key, isPlain c = true := by
  cases h with
  | bare hne hall =>
      intro c hc
      have hrange := toNat_of_isBareKeyChar (hall c hc)
      exact isPlain_iff.mpr (.inr (by omega))
  | literal hall =>
      have hname : ∀ c ∈ name, Toml.isPlain c = true := fun c hc => (hall c hc).1
      exact List.forall_mem_cons.mpr
        ⟨rfl, List.forall_mem_append.mpr ⟨hname, List.forall_mem_singleton.mpr rfl⟩⟩
  | quoted hbody =>
      exact List.forall_mem_cons.mpr
        ⟨rfl, List.forall_mem_append.mpr ⟨hbody.isPlain, List.forall_mem_singleton.mpr rfl⟩⟩

/-- A key starts neither as blanks nor as a comment do, and with an ASCII character. -/
theorem Key.exists_first (h : Key key name) :
    ∃ c cs, key = c :: cs ∧ isBlank c = false ∧ c ≠ '#' ∧ c.toNat < 0x80 := by
  cases h with
  | bare hne hall =>
      obtain ⟨c, cs, rfl⟩ := List.exists_cons_of_ne_nil hne
      have hrange := toNat_of_isBareKeyChar (hall c List.mem_cons_self)
      refine ⟨c, cs, rfl, not_isBlank_of_lt (by omega), ?_, by omega⟩
      rintro rfl
      exact absurd hrange (by decide)
  | literal hall => exact ⟨'\'', _, rfl, rfl, by decide, by decide⟩
  | quoted hbody => exact ⟨'"', _, rfl, rfl, by decide, by decide⟩

/-- Blanks, or what follows them, come first. -/
theorem head_blanks {blanks : List Char} (hblanks : IsBlanks blanks)
    (hc : c ∈ (blanks ++ rest).head?) : isBlank c = true ∨ c ∈ rest.head? := by
  cases blanks with
  | nil => exact .inr hc
  | cons b blanks =>
      obtain rfl := Option.some.inj hc
      exact .inl (hblanks b List.mem_cons_self)

/-- A line starts with an ASCII character unless it is empty, and then what follows it may
come first. -/
theorem Line.head_append (h : Line line as) (hc : c ∈ (line ++ rest).head?) :
    c.toNat < 0x80 ∨ c ∈ rest.head? := by
  have hblank : ∀ {c}, Toml.isBlank c = true → c.toNat < 0x80 := by
    intro c h
    rcases isBlank_iff.mp h with rfl | rfl <;> decide
  cases h with
  | empty hindent hremark =>
      rw [List.append_assoc] at hc
      rcases head_blanks hindent hc with hc | hc
      · exact .inl (hblank hc)
      · rcases hremark with rfl | ⟨comment, rfl, -⟩
        · exact .inr hc
        · obtain rfl := Option.some.inj hc
          exact .inl (by decide)
  | assignment hindent hkey hbefore hbehind hnumber htrail hremark =>
      obtain ⟨d, ds, rfl, -, -, hd⟩ := hkey.exists_first
      rw [List.append_assoc] at hc
      rcases head_blanks hindent hc with hc | hc
      · exact .inl (hblank hc)
      · obtain rfl := Option.some.inj hc
        exact .inl hd

/-- The characters of a line are plain, so that none of them ends it. -/
theorem Line.isPlain (h : Line line as) : ∀ c ∈ line, isPlain c = true := by
  have hblanks : ∀ {cs}, IsBlanks cs → ∀ c ∈ cs, Toml.isPlain c = true :=
    fun h c hc => isPlain_of_isBlank (h c hc)
  have hremarks : ∀ {cs}, IsRemark cs → ∀ c ∈ cs, Toml.isPlain c = true := by
    rintro cs (rfl | ⟨comment, rfl, hall⟩)
    · simp
    · exact List.forall_mem_cons.mpr ⟨rfl, hall⟩
  cases h with
  | empty hindent hremark =>
      exact List.forall_mem_append.mpr ⟨hblanks hindent, hremarks hremark⟩
  | assignment hindent hkey hbefore hbehind hnumber htrail hremark =>
      simp only [List.forall_mem_append, List.forall_mem_cons]
      exact ⟨hblanks hindent, hkey.isPlain, hblanks hbefore, rfl, hblanks hbehind,
        fun c hc => (hnumber.isNumeral c hc).isPlain, hblanks htrail,
        hremarks hremark⟩

/-! ## Lines -/

/-- Blanks and a comment may end a line. -/
theorem endsLine_of_remark {blanks remark : List Char} (hblanks : IsBlanks blanks)
    (hremark : IsRemark remark) : endsLine (blanks ++ remark) = true := by
  rcases hremark with rfl | ⟨comment, rfl, hall⟩
  · rw [endsLine, dropWhile_run hblanks (by simp)]
  · rw [endsLine, dropWhile_run hblanks (forall_head_cons rfl)]
    simpa using hall

/-- A blank ends a bare key. -/
theorem not_isBareKeyChar_of_isBlank (h : isBlank c = true) : isBareKeyChar c = false := by
  rcases isBlank_iff.mp h with rfl | rfl <;> rfl

/-- **A line that assigns is read to its assignment.** -/
theorem assignment?_of_key {before behind number trail remark : List Char}
    (hkey : Key key name) (hbefore : IsBlanks before) (hbehind : IsBlanks behind)
    (hnumber : Integer number value) (htrail : IsBlanks trail) (hremark : IsRemark remark) :
    assignment? (key ++ (before ++ '=' :: (behind ++ (number ++ (trail ++ remark))))) =
      some ⟨String.ofList name, value⟩ := by
  have hkeyEnds : ∀ c ∈ (before ++ '=' :: (behind ++ (number ++ (trail ++ remark)))).head?,
      isBareKeyChar c = false := by
    intro c hc
    rcases head_blanks hbefore hc with hc | hc
    · exact not_isBareKeyChar_of_isBlank hc
    · obtain rfl := Option.some.inj hc
      rfl
  have hnumberEnds : ∀ c ∈ (trail ++ remark).head?, (!isBlank c && c != '#') = false := by
    intro c hc
    rcases head_blanks htrail hc with hc | hc
    · simp [hc]
    · rcases hremark with rfl | ⟨comment, rfl, -⟩
      · cases hc
      · obtain rfl := Option.some.inj hc
        decide
  have hchars : ∀ c ∈ number, (!isBlank c && c != '#') = true :=
    fun c hc => (hnumber.isNumeral c hc).goesOn
  have hnumberStarts : ∀ c ∈ (number ++ (trail ++ remark)).head?, isBlank c = false := by
    obtain ⟨d, ds, rfl⟩ := List.exists_cons_of_ne_nil hnumber.ne_nil
    have hd := hchars d List.mem_cons_self
    rw [Bool.and_eq_true, Bool.not_eq_true'] at hd
    exact forall_head_cons hd.1
  have hequals : ∀ c ∈ ('=' :: (behind ++ (number ++ (trail ++ remark)))).head?,
      isBlank c = false := forall_head_cons rfl
  have htake := takeWhile_run hchars hnumberEnds
  have hdrop : (number ++ (trail ++ remark)).drop number.length = trail ++ remark :=
    List.drop_left
  rw [assignment?, key?_of_key hkey hkeyEnds]
  simp only [Option.bind_eq_bind, Option.bind_some, dropWhile_run hbefore hequals,
    dropWhile_run hbehind hnumberStarts, htake, hdrop, integer?_of_integer hnumber,
    endsLine_of_remark htrail hremark, if_true]

/-- Blanks in front of a line do not tell whether it assigns. -/
theorem endsLine_dropWhile (cs : List Char) :
    endsLine (cs.dropWhile isBlank) = endsLine cs := by
  rw [endsLine, endsLine, List.dropWhile_idempotent]

/-- A line with a key in front is neither blank nor a comment. -/
theorem endsLine_of_key (hkey : Key key name) (rest : List Char) :
    endsLine (key ++ rest) = false := by
  obtain ⟨c, cs, rfl, hblank, hcomment, -⟩ := hkey.exists_first
  rw [List.cons_append, endsLine, List.dropWhile_cons_of_neg (by simp [hblank])]
  simp [hcomment]

/-- What a line assigns comes before what the lines behind it assign. -/
theorem assignmentsOfLines?_of_line (h : Line line as) (rest : List (List Char)) :
    assignmentsOfLines? (line :: rest) = (assignmentsOfLines? rest).map (as ++ ·) := by
  cases h with
  | empty hindent hremark =>
      rw [assignmentsOfLines?, if_pos]
      · simp
      · rw [endsLine_dropWhile]
        exact endsLine_of_remark hindent hremark
  | @assignment indent key name before behind number trail remark value hindent hkey hbefore
      hbehind hnumber htrail hremark =>
      have hread := assignment?_of_key hkey hbefore hbehind hnumber htrail hremark
      have hends := endsLine_of_key hkey
        (before ++ '=' :: (behind ++ (number ++ (trail ++ remark))))
      obtain ⟨c, cs, rfl, hblank, -⟩ := hkey.exists_first
      rw [List.cons_append] at hread hends ⊢
      rw [assignmentsOfLines?, dropWhile_run hindent (forall_head_cons hblank), hends, hread]
      rw [if_neg (by decide)]
      cases assignmentsOfLines? rest <;> rfl

/-! ## Documents -/

/-- What holds no control character stands in one line. -/
theorem lines_append {first : List Char} {others : List (List Char)}
    (hline : ∀ c ∈ line, isPlain c = true) (hrest : lines rest = first :: others) :
    lines (line ++ rest) = (line ++ first) :: others := by
  induction line with
  | nil => exact hrest
  | cons c line ih =>
      have hc := hline c List.mem_cons_self
      have hread := ih fun d hd => hline d (List.mem_cons_of_mem c hd)
      rw [List.cons_append, lines, hread]
      · rfl
      · rintro rfl
        cases hc
      · rintro tail rfl
        cases hc

/-- **The lines of a document make its assignments.** -/
theorem assignmentsOfLines?_of_document (h : Document text as) :
    assignmentsOfLines? (lines text) = some as := by
  induction h with
  | @last line as hline =>
      have hlines : lines (line ++ []) = [line ++ []] := lines_append hline.isPlain rfl
      rw [List.append_nil] at hlines
      rw [hlines, assignmentsOfLines?_of_line hline]
      simp [assignmentsOfLines?]
  | @more line eol text as others hline hbreak hrest ih =>
      have heol : lines (eol ++ text) = [] :: lines text := by
        rcases hbreak with rfl | rfl <;> rfl
      have hlines := lines_append hline.isPlain heol
      rw [List.append_nil] at hlines
      rw [hlines, assignmentsOfLines?_of_line hline, ih, Option.map_some]

/-- A document starts with an ASCII character, and so not with a byte order mark. -/
theorem withoutMark_of_document (h : Document text as) : withoutMark text = text := by
  have hfirst : ∀ c ∈ text.head?, c.toNat < 0x80 := by
    intro c hc
    cases h with
    | last hline =>
        rw [← List.append_nil text] at hc
        exact (hline.head_append hc).resolve_right (by simp)
    | more hline hbreak hrest =>
        rcases hline.head_append hc with hc | hc
        · exact hc
        · rcases hbreak with rfl | rfl
          all_goals
            obtain rfl := Option.some.inj hc
            decide
  cases text with
  | nil => rfl
  | cons c cs =>
      have hc := hfirst c rfl
      exact if_neg (by omega)

/-- **A document is read to its assignments** if it assigns no key twice. -/
theorem assignments?_of_document (h : Document text as)
    (hdistinct : (as.map Assignment.key).Nodup) :
    assignments? (String.ofList text) = some as := by
  rw [assignments?, String.toList_ofList, withoutMark_of_document h,
    assignmentsOfLines?_of_document h]
  exact if_pos hdistinct

end RecordFilter.Toml
