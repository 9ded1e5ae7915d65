import RecordFilter.Proofs.Reading.Symbol
import RecordFilter.Proofs.Text.Quoted

/-!
# What the reader of literals accepts

A literal is read exactly where one of the literals of a value stands and a delimiter
of the place, or the end, comes directly behind it.  No literal can be continued by a
delimiter, so nothing has to be said about the longest match.

* `digits_eq_ok_iff` — the reader of numbers behind their sign;
* `read_eq_ok_iff` — the reader of literals.
-/

namespace RecordFilter

/-- The digits at the front of a window, if there are any. -/
theorem Window.isDigits_run {w : Window} (h : ¬(w.run Byte.isDigit).isEmpty = true) :
    IsDigits (w.run Byte.isDigit) :=
  ⟨by simpa [List.isEmpty_iff] using h, fun _ hb => Window.all_of_mem_run hb⟩

theorem IsDigits.isEmpty {digits : List UInt8} (h : IsDigits digits) :
    digits.isEmpty = false := by
  simpa [List.isEmpty_eq_false_iff] using h.nonempty

namespace Literal

variable {place : Place} {w after : Window} {value : Value} {start : Nat} {negative : Bool}

/-- The integer of a sign and digits, exactly: the bounds are those of 64 bits. -/
theorem integer?_eq_some_iff {digits : List UInt8} {n : Int64} :
    integer? negative digits = some n ↔
      n.toInt = if negative then -(Byte.natOfDigits digits : Int)
        else Byte.natOfDigits digits := by
  unfold integer?
  dsimp only
  generalize (if negative then -(Byte.natOfDigits digits : Int)
    else Byte.natOfDigits digits) = k
  constructor
  · intro h
    split at h
    · next hrange =>
      cases h
      exact Int64.toInt_ofInt_of_le (by omega) (by omega)
    · cases h
  · intro h
    have hlow := n.le_toInt
    have hhigh := n.toInt_lt
    rw [← h, if_pos (by omega), Int64.ofInt_toInt]

/-! ## Numbers -/

/-- Behind a point exactly the digits up to the next other byte are read, if the decimal is
finite. -/
theorem fraction_eq_ok_iff {whole : List UInt8} :
    fraction place start negative whole w = .ok (value, after) ↔
      ∃ digits, IsDigits digits ∧ w.Takes digits after ∧
        (∀ b, after.peek? = some b → Byte.isDigit b = false) ∧
        value = .decimal (Binary64.ofDigits negative whole digits) ∧
        (Binary64.ofDigits negative whole digits).isFinite = true := by
  unfold fraction
  dsimp only
  constructor
  · intro h
    split at h
    · exact absurd h (missingDigit_ne_ok _ _)
    · next hdigits =>
      split at h
      · next hfinite =>
        cases h
        exact ⟨_, Window.isDigits_run hdigits, w.takes_run _,
          fun b hb => Window.not_of_peek?_skipWhile hb, rfl, hfinite⟩
      · cases h
  · intro h
    obtain ⟨digits, hdigits, htakes, hnext, rfl, hfinite⟩ := h
    obtain ⟨hrun, hskip⟩ := htakes.run_eq hdigits.all hnext
    rw [hrun, hskip, if_neg (by simp [hdigits.isEmpty]), if_pos hfinite]

/-- Behind digits and a point the digits of the fraction are read. -/
theorem digits_of_point {whole : List UInt8} (hwhole : IsDigits whole)
    (htakes : w.Takes (whole ++ [Byte.dot]) after) :
    Literal.digits place start negative w = Literal.fraction place start negative whole after := by
  obtain ⟨middle, hfront, hpoint⟩ := htakes.split
  have hpeek := hpoint.peek?_cons
  have hafter : middle.skip 1 = after := hpoint.skip_eq
  obtain ⟨hrun, hskip⟩ := hfront.run_eq hwhole.all (by
    intro b hb
    obtain rfl := hpoint.eq_of_peek? hb
    rfl)
  rw [Literal.digits, hrun, hskip, if_neg (by simp [hwhole.isEmpty]), if_pos hpeek, hafter]

/-- **The reader of numbers behind their sign, exactly.** -/
theorem digits_eq_ok_iff :
    Literal.digits place start negative w = .ok (value, after) ↔
      (∃ digits n, IsDigits digits ∧ w.Takes digits after ∧
        (∀ b, after.peek? = some b → Byte.isDigit b = false ∧ b ≠ Byte.dot) ∧
        value = .integer n ∧
        n.toInt = (if negative then -(Byte.natOfDigits digits : Int)
          else Byte.natOfDigits digits)) ∨
      (∃ whole fraction, IsDigits whole ∧ IsDigits fraction ∧
        w.Takes (whole ++ Byte.dot :: fraction) after ∧
        (∀ b, after.peek? = some b → Byte.isDigit b = false) ∧
        value = .decimal (Binary64.ofDigits negative whole fraction) ∧
        (Binary64.ofDigits negative whole fraction).isFinite = true) := by
  constructor
  · intro h
    unfold Literal.digits at h
    dsimp only at h
    split at h
    · exact absurd h (missingDigit_ne_ok _ _)
    · next hwhole =>
      have hdigits := Window.isDigits_run hwhole
      split at h
      · next hdot =>
        obtain ⟨fraction, hfraction, htakes, hnext, hvalue, hfinite⟩ :=
          fraction_eq_ok_iff.mp h
        have hpoint := (w.takes_run Byte.isDigit).trans
          ((Window.takes_of_peek? hdot).trans htakes)
        exact .inr ⟨_, fraction, hdigits, hfraction, hpoint, hnext, hvalue, hfinite⟩
      · next hdot =>
        split at h
        · next n hn =>
          cases h
          refine .inl ⟨_, n, hdigits, w.takes_run _, ?_, rfl, integer?_eq_some_iff.mp hn⟩
          intro b hb
          refine ⟨Window.not_of_peek?_skipWhile hb, ?_⟩
          intro heq
          subst heq
          exact hdot hb
        · cases h
  · intro h
    rcases h with ⟨digits, n, hdigits, htakes, hnext, rfl, hn⟩ |
      ⟨whole, fraction, hwhole, hfraction, htakes, hnext, hvalue, hfinite⟩
    · obtain ⟨hrun, hskip⟩ := htakes.run_eq hdigits.all fun b hb => (hnext b hb).1
      have hdot : after.peek? ≠ some Byte.dot := fun h => (hnext _ h).2 rfl
      rw [Literal.digits, hrun, hskip, if_neg (by simp [hdigits.isEmpty]), if_neg hdot,
        integer?_eq_some_iff.mpr hn]
    · rw [List.append_cons] at htakes
      obtain ⟨behind, hpoint, hrest⟩ := htakes.split
      rw [digits_of_point hwhole hpoint]
      exact fraction_eq_ok_iff.mpr ⟨fraction, hfraction, hrest, hnext, hvalue, hfinite⟩

/-- A number behind its sign is a literal of its value. -/
theorem takes_of_digits (h : Literal.digits place start negative w = .ok (value, after)) :
    ∃ text, w.Takes text after ∧ value.Writes (Byte.sign negative ++ text) := by
  rcases digits_eq_ok_iff.mp h with
    ⟨digits, n, hdigits, htakes, -, rfl, hn⟩ |
    ⟨whole, fraction, hwhole, hfraction, htakes, -, rfl, hfinite⟩
  · exact ⟨digits, htakes, .integer negative hdigits hn⟩
  · exact ⟨_, htakes, .decimal negative hwhole hfraction hfinite⟩

/-- A number that is read was written. -/
theorem takes_of_number (h : number place w = .ok (value, after)) :
    ∃ text, w.Takes text after ∧ value.Writes text := by
  unfold number at h
  split at h
  · next hminus =>
    obtain ⟨text, htakes, hwrites⟩ := takes_of_digits h
    exact ⟨_, (Window.takes_of_peek? hminus).trans htakes, hwrites⟩
  · exact takes_of_digits h

/-- A sign and a number behind it are read as one number. -/
theorem number_of_digits {text : List UInt8} (h : w.Takes (Byte.sign negative ++ text) after)
    (htext : ∃ b rest, text = b :: rest ∧ b ≠ Byte.minus)
    (hdigits : ∀ start middle, middle.Takes text after →
      Literal.digits place start negative middle = .ok (value, after)) :
    number place w = .ok (value, after) := by
  obtain ⟨middle, hsign, hrest⟩ := h.split
  unfold number
  cases negative with
  | true =>
      rw [if_pos hsign.peek?_cons, show w.skip 1 = middle from hsign.skip_eq]
      exact hdigits _ _ hrest
  | false =>
      obtain ⟨b, rest, rfl, hb⟩ := htext
      have hw : middle = w := hsign.eq_of_nil rfl
      subst hw
      rw [if_neg (by rw [hrest.peek?_cons]; simpa using hb)]
      exact hdigits _ _ hrest

/-! ## Truth values -/

/-- A boolean that is read was written. -/
theorem takes_of_boolean (h : boolean place w = .ok (value, after)) :
    ∃ text, w.Takes text after ∧ value.Writes text := by
  unfold boolean at h
  dsimp only at h
  split at h
  · next htrue =>
    cases h
    exact ⟨_, w.takes_run _, .true htrue⟩
  split at h
  · next hfalse =>
    cases h
    exact ⟨_, w.takes_run _, .false hfalse⟩
  · cases h

/-! ## Delimiters -/

/-- A byte behind a literal, if there is one, is a delimiter of the place. -/
def Delimits (place : Place) (after : Window) : Prop :=
  ∀ b, after.peek? = some b → place.isDelimiter b = true

/-- A value ends with a blank, a comma or a closing parenthesis. -/
theorem isDelimiter_cases {b : UInt8} (h : place.isDelimiter b = true) :
    b = Byte.space ∨ b = Byte.comma ∨ b = Byte.closeParen := by
  cases place with
  | operand => exact .inl (by simpa [Place.isDelimiter] using h)
  | argument =>
      simp only [Place.isDelimiter, Bool.or_eq_true, beq_iff_eq] at h
      rcases h with (h | h) | h
      · exact .inl h
      · exact .inr (.inl h)
      · exact .inr (.inr h)

/-- A delimiter continues no literal. -/
theorem Delimits.not_continues (h : Delimits place after) {b : UInt8}
    (hb : after.peek? = some b) :
    Byte.isDigit b = false ∧ Byte.isLetter b = false ∧ b ≠ Byte.dot := by
  rcases isDelimiter_cases (h b hb) with rfl | rfl | rfl <;> decide

/-- A value is passed on exactly where something ends it. -/
theorem ended_eq_ok_iff {result : Value} :
    ended place value w = .ok (result, after) ↔
      result = value ∧ after = w ∧ Delimits place w := by
  unfold ended Delimits
  cases w with
  | mk pos rest =>
    cases rest with
    | nil =>
        simp only [Window.peek?, List.head?_nil]
        constructor
        · intro h
          cases h
          exact ⟨rfl, rfl, fun _ h => by cases h⟩
        · intro h
          obtain ⟨rfl, rfl, -⟩ := h
          rfl
    | cons b rest =>
        simp only [Window.peek?, List.head?_cons, Option.some.injEq]
        constructor
        · intro h
          split at h
          · next hb =>
            cases h
            exact ⟨rfl, rfl, fun c hc => hc ▸ hb⟩
          split at h <;> cases h
        · intro h
          obtain ⟨rfl, rfl, hb⟩ := h
          rw [if_pos (hb b rfl)]

/-! ## All literals -/

/-- A literal that is read was written. -/
theorem takes_of_unended (h : unended place w = .ok (value, after)) :
    ∃ text, w.Takes text after ∧ value.Writes text := by
  unfold unended at h
  split at h
  · cases h
  · next b rest hrest =>
    have hpeek : w.peek? = some b := by rw [Window.peek?, hrest]; rfl
    split at h
    · next hquote =>
      subst hquote
      obtain ⟨text, bytes, hwrites, rfl, htakes⟩ := string_eq_ok_iff.mp h
      have hopen : w.Takes [Byte.quote] ⟨w.pos + 1, rest⟩ := ⟨hrest, rfl⟩
      exact ⟨_, hopen.trans htakes, .string hwrites⟩
    split at h
    · exact takes_of_number h
    split at h
    · exact takes_of_boolean h
    split at h <;> cases h

/-- The first byte of a literal tells its kind. -/
theorem unended_of_first {b : UInt8} (hpeek : w.peek? = some b) (hquote : b ≠ Byte.quote) :
    ((b = Byte.minus ∨ Byte.isDigit b = true) → unended place w = number place w) ∧
    (Byte.isLetter b = true → unended place w = boolean place w) := by
  have hrest : ∃ rest, w.rest = b :: rest := by
    obtain ⟨rest, hrest⟩ := List.head?_eq_some_iff.mp hpeek
    exact ⟨rest, hrest⟩
  obtain ⟨rest, hrest⟩ := hrest
  refine ⟨?_, ?_⟩
  · intro hnumber
    unfold unended
    rw [hrest]
    dsimp only
    rw [if_neg hquote, if_pos hnumber]
  · intro hletter
    unfold unended
    rw [hrest]
    dsimp only
    rw [if_neg hquote, if_neg, if_pos hletter]
    intro h
    rcases h with rfl | hdigit
    · exact absurd hletter (by decide)
    · have hl := Byte.isLetter_iff.mp hletter
      have hd := Byte.isDigit_iff.mp hdigit
      omega

/-- A sign or a digit announces a number. -/
theorem unended_eq_number {b : UInt8} (hpeek : w.peek? = some b)
    (hb : b = Byte.minus ∨ Byte.isDigit b = true) : unended place w = number place w := by
  have hquote : b ≠ Byte.quote := by
    rcases hb with rfl | hdigit
    · decide
    · exact Byte.ne_of_class hdigit (by decide)
  exact (unended_of_first hpeek hquote).1 hb

/-- The first byte of a number is its sign or a digit. -/
theorem first_of_digits {text : List UInt8} (negative : Bool)
    (h : ∃ b rest, text = b :: rest ∧ Byte.isDigit b = true) :
    ∃ b rest, Byte.sign negative ++ text = b :: rest ∧
      (b = Byte.minus ∨ Byte.isDigit b = true) := by
  obtain ⟨b, rest, rfl, hb⟩ := h
  cases negative with
  | true => exact ⟨_, _, rfl, .inl rfl⟩
  | false => exact ⟨_, _, rfl, .inr hb⟩

/-- Digits start with a digit, whatever follows. -/
theorem exists_cons_of_isDigits {digits : List UInt8} (h : IsDigits digits)
    (more : List UInt8) : ∃ b rest, digits ++ more = b :: rest ∧ Byte.isDigit b = true := by
  obtain ⟨b, rest, rfl⟩ := List.exists_cons_of_ne_nil h.nonempty
  exact ⟨b, rest ++ more, rfl, h.all b List.mem_cons_self⟩

/-- A written number is read as a number once its digits are. -/
theorem unended_of_number {text : List UInt8}
    (h : w.Takes (Byte.sign negative ++ text) after)
    (htext : ∃ b rest, text = b :: rest ∧ Byte.isDigit b = true)
    (hdigits : ∀ start middle, middle.Takes text after →
      Literal.digits place start negative middle = .ok (value, after)) :
    unended place w = .ok (value, after) := by
  obtain ⟨b, rest, hfirst, hb⟩ := first_of_digits negative htext
  have hpeek : w.peek? = some b := Window.Takes.peek?_cons (hfirst ▸ h)
  rw [unended_eq_number hpeek hb]
  refine number_of_digits h ?_ hdigits
  obtain ⟨d, more, rfl, hd⟩ := htext
  exact ⟨d, more, rfl, Byte.ne_of_class hd (by decide)⟩

/-- A written truth value is read as one. -/
theorem unended_of_word {text : List UInt8} {word : List Char} (h : w.Takes text after)
    (hspells : Byte.spells word text = true) (hne : word ≠ [])
    (hword : ∀ c ∈ word, Byte.isLetter c.toUInt8 = true)
    (hnext : ∀ b, after.peek? = some b → Byte.isLetter b = false)
    (hread : w.run Byte.isLetter = text → w.skipWhile Byte.isLetter = after →
      boolean place w = .ok (value, after)) :
    unended place w = .ok (value, after) := by
  have hletters := Byte.isLetter_of_spells hspells hword
  obtain ⟨b, rest, rfl, hb⟩ := Byte.first_of_spells hspells hne hword
  have hquote : b ≠ Byte.quote := Byte.ne_of_class hb (by decide)
  rw [(unended_of_first h.peek?_cons hquote).2 hb]
  obtain ⟨hrun, hskip⟩ := h.run_eq hletters hnext
  exact hread hrun hskip

/-- A literal starts with a quote, a sign, a digit or a letter. -/
theorem first_of_writes {text : List UInt8} (h : value.Writes text) :
    ∃ b rest, text = b :: rest ∧ (b = Byte.quote ∨ b = Byte.minus ∨
      Byte.isDigit b = true ∨ Byte.isLetter b = true) := by
  cases h with
  | @integer _ negative digits hdigits _ =>
      obtain ⟨b, rest, htext, hb⟩ :=
        first_of_digits negative (by simpa using exists_cons_of_isDigits hdigits [])
      rcases hb with hb | hb
      · exact ⟨b, rest, htext, .inr (.inl hb)⟩
      · exact ⟨b, rest, htext, .inr (.inr (.inl hb))⟩
  | decimal negative hwhole _ _ =>
      obtain ⟨b, rest, htext, hb⟩ :=
        first_of_digits negative (exists_cons_of_isDigits hwhole _)
      rcases hb with hb | hb
      · exact ⟨b, rest, htext, .inr (.inl hb)⟩
      · exact ⟨b, rest, htext, .inr (.inr (.inl hb))⟩
  | string _ => exact ⟨_, _, rfl, .inl rfl⟩
  | true hspells =>
      obtain ⟨b, rest, rfl, hb⟩ :=
        Byte.first_of_spells hspells (by simp) (List.all_eq_true.mp (by decide))
      exact ⟨b, rest, rfl, .inr (.inr (.inr hb))⟩
  | false hspells =>
      obtain ⟨b, rest, rfl, hb⟩ :=
        Byte.first_of_spells hspells (by simp) (List.all_eq_true.mp (by decide))
      exact ⟨b, rest, rfl, .inr (.inr (.inr hb))⟩

/-- In particular the first byte of a literal is neither punctuation nor a blank. -/
theorem peek?_of_writes {text : List UInt8} (h : value.Writes text)
    (htakes : w.Takes text after) :
    w.peek? ≠ some Byte.space ∧ w.peek? ≠ some Byte.closeParen ∧
      w.peek? ≠ some Byte.equals := by
  obtain ⟨b, rest, rfl, hb⟩ := first_of_writes h
  have hother : ∀ d, d ≠ Byte.quote ∧ d ≠ Byte.minus → Byte.isDigit d = false →
      Byte.isLetter d = false → some b ≠ some d := by
    intro d hsymbol hdigit hletter heq
    obtain rfl := Option.some.inj heq
    rcases hb with hb | hb | hb | hb
    · exact hsymbol.1 hb
    · exact hsymbol.2 hb
    · exact Byte.ne_of_class hb hdigit rfl
    · exact Byte.ne_of_class hb hletter rfl
  rw [htakes.peek?_cons]
  refine ⟨?_, ?_, ?_⟩
  · exact hother _ (by decide) (by decide) (by decide)
  · exact hother _ (by decide) (by decide) (by decide)
  · exact hother _ (by decide) (by decide) (by decide)

/-- A literal that something other than its continuation follows is read. -/
theorem unended_of_takes {text : List UInt8} (h : w.Takes text after)
    (hwrites : value.Writes text) (hnext : Delimits place after) :
    unended place w = .ok (value, after) := by
  cases hwrites with
  | integer negative hdigits hn =>
      refine unended_of_number h ?_ ?_
      · simpa using exists_cons_of_isDigits hdigits []
      · intro start middle htakes
        refine digits_eq_ok_iff.mpr (.inl ⟨_, _, hdigits, htakes, ?_, rfl, hn⟩)
        intro b hb
        exact ⟨(hnext.not_continues hb).1, (hnext.not_continues hb).2.2⟩
  | decimal negative hwhole hfraction hfinite =>
      apply unended_of_number h (exists_cons_of_isDigits hwhole _)
      intro start middle htakes
      refine digits_eq_ok_iff.mpr
        (.inr ⟨_, _, hwhole, hfraction, htakes, ?_, rfl, hfinite⟩)
      intro b hb
      exact (hnext.not_continues hb).1
  | string hbody =>
      obtain ⟨opened, hopen, hrest⟩ := Window.Takes.split (s := [Byte.quote]) h
      have hopened : (⟨w.pos + 1, opened.rest⟩ : Window) = opened :=
        Window.Takes.unique ⟨hopen.rest_eq, rfl⟩ hopen
      unfold unended
      rw [hopen.rest_eq]
      dsimp only [List.singleton_append]
      rw [if_pos rfl, hopened]
      exact string_eq_ok_iff.mpr ⟨_, _, hbody, rfl, hrest⟩
  | true hspells =>
      refine unended_of_word h hspells (by simp) (List.all_eq_true.mp (by decide))
        (fun b hb => (hnext.not_continues hb).2.1) ?_
      intro hrun hskip
      unfold boolean
      rw [hrun, hskip]
      exact if_pos hspells
  | false hspells =>
      refine unended_of_word h hspells (by simp) (List.all_eq_true.mp (by decide))
        (fun b hb => (hnext.not_continues hb).2.1) ?_
      intro hrun hskip
      have hnot : Byte.spells ['t', 'r', 'u', 'e'] text = false := by
        have hmap : text.map Byte.lower = ['f', 'a', 'l', 's', 'e'].map Char.toUInt8 := by
          simpa only [Byte.spells, beq_iff_eq] using hspells
        rw [Byte.spells, hmap]
        rfl
      unfold boolean
      rw [hrun, hskip]
      dsimp only
      rw [if_neg (by simp [hnot])]
      exact if_pos hspells

/-- **The literal reader, exactly.** -/
theorem read_eq_ok_iff :
    Literal.read place w = .ok (value, after) ↔
      ∃ text, w.Takes text after ∧ value.Writes text ∧ Delimits place after := by
  unfold Literal.read
  constructor
  · intro h
    split at h
    · cases h
    · next found behind hunended =>
      obtain ⟨rfl, rfl, hdelimits⟩ := ended_eq_ok_iff.mp h
      obtain ⟨text, htakes, hwrites⟩ := takes_of_unended hunended
      exact ⟨text, htakes, hwrites, hdelimits⟩
  · intro h
    obtain ⟨text, htakes, hwrites, hdelimits⟩ := h
    rw [unended_of_takes htakes hwrites hdelimits]
    exact ended_eq_ok_iff.mpr ⟨rfl, rfl, hdelimits⟩

end Literal

/-- An operator is read if a literal follows, behind blanks or directly: no literal starts
with an equality sign. -/
theorem Operator.read_of_literal {w v u after : Window} {o : Operator} {behind : Nat}
    {value : Value} {literal : List UInt8} (hoperator : w.Takes o.bytes v)
    (hspaces : v.Takes (Byte.spaces behind) u) (hwrites : value.Writes literal)
    (hliteral : u.Takes literal after) : Operator.read w = .ok (o, v) := by
  obtain ⟨c, more, rfl, -⟩ := Literal.first_of_writes hwrites
  obtain ⟨-, -, hequals⟩ := Literal.peek?_of_writes hwrites hliteral
  refine Operator.read_of_takes hoperator fun _ => ?_
  cases behind with
  | succ behind => exact ⟨Byte.space, hspaces.peek?_cons, by decide⟩
  | zero =>
      obtain rfl := hspaces.eq_of_nil rfl
      refine ⟨c, hliteral.peek?_cons, ?_⟩
      intro heq
      subst heq
      exact hequals hliteral.peek?_cons

end RecordFilter
