import RecordFilter.Proofs.FirstFault
import RecordFilter.Proofs.Grouping.Mark
import RecordFilter.Proofs.Grouping.Scan
import RecordFilter.Proofs.Machine.Phrase

/-!
# The scan and the readers divide the input alike

The end of a group is found by a scan that knows of quotes, backslashes and parentheses and of
nothing else, and only then are the contents read.  The scan lets a backslash hide any byte,
while the reader of strings knows four escapes.  Where the contents can be read, the two agree
all the same: what the machine takes for strings and parentheses, in the group and in all
groups inside it, are the strings and parentheses that the scan has seen.

A machine comes from one window to the next by tokens, and the scan is outside of strings
between them.  `Shows` says what the scan sees in such a piece of the window; pieces compose,
and each token is a piece of its own.

* `FunctionCall.shows`, `shows_step` — the pieces that a call and a step take;
* `consumes_iff_of_run` — what a run takes is what the scan sees in its window;
* `scan_agrees_with_reading` — where a group ends, and what is in it.
-/

namespace RecordFilter

open Grouping

/-! ## Pieces of a window -/

namespace Window

variable {w u after : Window} {P Q : Mark → Prop} {text : List UInt8} {mark : Mark} {b : UInt8}

/-- Between the two windows the scan sees exactly these marks, and it is outside of strings in
front of both. -/
def Shows (w : Window) (marks : Mark → Prop) (after : Window) : Prop :=
  ∃ text, w.Takes text after ∧ quotingFrom .outside text = .outside ∧
    ∀ mark, Sees w.pos text mark ↔ marks mark

/-- What the scan sees in a window is what it sees in a piece of it, and behind. -/
theorem Shows.sees (h : w.Shows P after) :
    Sees w.pos w.rest mark ↔ P mark ∨ Sees after.pos after.rest mark := by
  obtain ⟨text, htakes, hquoting, hmarks⟩ := h
  rw [htakes.rest_eq, sees_append hquoting, hmarks, htakes.pos_eq]

/-- Marks in two pieces are the marks of both together. -/
theorem Shows.trans (h : w.Shows P u) (h' : u.Shows Q after) :
    w.Shows (fun mark => P mark ∨ Q mark) after := by
  obtain ⟨s, hs, hsquoting, hP⟩ := h
  obtain ⟨t, ht, htquoting, hQ⟩ := h'
  refine ⟨s ++ t, hs.trans ht, ?_, ?_⟩
  · rw [quotingFrom_append, hsquoting, htquoting]
  · intro mark
    rw [sees_append hsquoting, hP, ← hs.pos_eq, hQ]

/-- Marks may be described in another way. -/
theorem Shows.congr (h : w.Shows P after) (hmarks : ∀ mark, P mark ↔ Q mark) :
    w.Shows Q after := by
  obtain ⟨text, htakes, hquoting, hP⟩ := h
  exact ⟨text, htakes, hquoting, fun mark => (hP mark).trans (hmarks mark)⟩

/-- Bytes without quotes and parentheses show nothing. -/
theorem shows_of_plain (h : w.Takes text after) (hplain : ∀ b ∈ text, Byte.Plain b) :
    w.Shows (fun _ => False) after := by
  refine ⟨text, h, (balanced_of_plain hplain).outside, ?_⟩
  intro mark
  exact ⟨fun hsees => not_sees_of_plain hplain hsees, False.elim⟩

/-- They may follow a piece. -/
theorem Shows.plain (h : w.Shows P u) (htakes : u.Takes text after)
    (hplain : ∀ b ∈ text, Byte.Plain b) : w.Shows P after :=
  (h.trans (shows_of_plain htakes hplain)).congr fun _ => or_iff_left id

/-- They may stand in front of a piece. -/
theorem Shows.behind_plain (h : u.Shows P after) (htakes : w.Takes text u)
    (hplain : ∀ b ∈ text, Byte.Plain b) : w.Shows P after :=
  ((shows_of_plain htakes hplain).trans h).congr fun _ => or_iff_right id

theorem plain_spaces {n : Nat} : ∀ b ∈ Byte.spaces n, Byte.Plain b := by
  intro b hb
  rw [mem_spaces hb]
  decide

/-- Blanks behind a piece show no marks. -/
theorem Shows.skipSpaces (h : w.Shows P u) : w.Shows P u.skipSpaces := by
  obtain ⟨n, hn⟩ := u.takes_spaces
  exact h.plain hn plain_spaces

/-- Blanks in front of a piece show no marks. -/
theorem Shows.behind_skipSpaces (h : w.skipSpaces.Shows P after) : w.Shows P after := by
  obtain ⟨n, hn⟩ := w.takes_spaces
  exact h.behind_plain hn plain_spaces

/-- Blanks make no difference to what the scan sees. -/
theorem sees_skipSpaces :
    Sees w.skipSpaces.pos w.skipSpaces.rest mark ↔ Sees w.pos w.rest mark := by
  obtain ⟨n, hn⟩ := w.takes_spaces
  rw [(shows_of_plain hn plain_spaces).sees, false_or]

/-- A byte without a meaning to the scan. -/
theorem shows_byte (hb : w.peek? = some b) (hplain : Byte.Plain b) :
    w.Shows (fun _ => False) (w.skip 1) :=
  shows_of_plain (takes_of_peek? hb) fun _ hc => List.mem_singleton.mp hc ▸ hplain

/-- A parenthesis shows itself. -/
theorem shows_parenthesis (hb : w.peek? = some b)
    (hparen : b = Byte.openParen ∨ b = Byte.closeParen) :
    w.Shows (fun mark => mark = .parenthesis w.pos) (w.skip 1) := by
  refine ⟨[b], takes_of_peek? hb, ?_, fun mark => sees_parenthesis hparen⟩
  rcases hparen with rfl | rfl
  · rfl
  · rfl

/-- Bytes are plain if a check of each says so. -/
theorem plain_of_all (h : text.all (fun b => decide (Byte.Plain b)) = true) :
    ∀ b ∈ text, Byte.Plain b :=
  fun b hb => of_decide_eq_true (List.all_eq_true.mp h b hb)

theorem plain_of_letters (h : ∀ b ∈ text, Byte.isLetter b = true) :
    ∀ b ∈ text, Byte.Plain b :=
  fun b hb => Byte.plain_of_isLetter (h b hb)

end Window

/-! ## Tokens -/

/-- An operator shows no marks. -/
theorem Operator.shows_read {w after : Window} {o : Operator}
    (h : Operator.read w = .ok (o, after)) : w.Shows (fun _ => False) after := by
  apply Window.shows_of_plain (Operator.read_eq_ok_iff.mp h).1
  apply Window.plain_of_all
  cases o <;> rfl

theorem Connector.shows_read {w after : Window} {c : Connector}
    (h : Connector.read w = .ok (c, after)) : w.Shows (fun _ => False) after := by
  obtain ⟨token, htakes, hwrites, -⟩ := Connector.read_eq_ok_iff.mp h
  apply Window.shows_of_plain htakes
  rcases hwrites with rfl | hword
  · apply Window.plain_of_all
    cases c <;> rfl
  · exact Window.plain_of_letters (Byte.isLetter_of_spells hword c.isLetter_word)

namespace Literal

variable {place : Place} {w after : Window} {value : Value}

/-- The literal in front of the window is a string, which is taken as a whole. -/
def TakesString (place : Place) (w : Window) (mark : Mark) : Prop :=
  ∃ text after, Literal.read place w = .ok (.string text, after) ∧
    mark = .string w.pos after.pos

/-- A literal shows its string if it is one. -/
theorem shows_read (h : Literal.read place w = .ok (value, after)) :
    w.Shows (TakesString place w) after := by
  obtain ⟨literal, htakes, hwrites, -⟩ := Literal.read_eq_ok_iff.mp h
  refine ⟨literal, htakes, hwrites.balanced.outside, ?_⟩
  intro mark
  rw [hwrites.sees, ← htakes.pos_eq]
  -- There is only one result of the reading, so the string and its end are those of `h`.
  constructor
  · rintro ⟨⟨text, rfl⟩, rfl⟩
    exact ⟨text, after, h, rfl⟩
  · rintro ⟨text, other, hread, rfl⟩
    rw [h] at hread
    cases hread
    exact ⟨⟨text, rfl⟩, rfl⟩

end Literal

/-! ## Calls -/

namespace FunctionCall

variable {w u behind after : Window} {value : Value} {read args : List Value} {mark : Mark}

/-- Among the arguments that start at `w` there is a string. -/
def TakesString (w : Window) (mark : Mark) : Prop :=
  ∃ u, ArgumentAt w u ∧ Literal.TakesString .argument u mark

/-- In front of a comma there is one argument, and there are more behind it. -/
theorem takesString_of_comma (hvalue : Literal.read .argument w = .ok (value, behind))
    (hcomma : behind.skipSpaces.peek? = some Byte.comma) :
    TakesString w mark ↔ Literal.TakesString .argument w mark ∨
      TakesString (behind.skipSpaces.skip 1).skipSpaces mark := by
  constructor
  · rintro ⟨u, hu, hstring⟩
    cases hu with
    | here => exact .inl hstring
    | next hother _ hrest =>
        rw [hvalue] at hother
        cases hother
        exact .inr ⟨u, hrest, hstring⟩
  · rintro (hstring | ⟨u, hu, hstring⟩)
    · exact ⟨w, .here, hstring⟩
    · exact ⟨u, .next hvalue hcomma hu, hstring⟩

/-- In front of anything else there is the last one. -/
theorem takesString_of_last (hvalue : Literal.read .argument w = .ok (value, behind))
    (hlast : behind.skipSpaces.peek? ≠ some Byte.comma) :
    TakesString w mark ↔ Literal.TakesString .argument w mark := by
  constructor
  · rintro ⟨u, hu, hstring⟩
    cases hu with
    | here => exact hstring
    | next hother hcomma _ =>
        rw [hvalue] at hother
        cases hother
        exact absurd hcomma hlast
  · intro hstring
    exact ⟨w, .here, hstring⟩

/-- Arguments show their strings and the parenthesis behind them. -/
theorem shows_arguments (h : arguments read w = .ok (args, after)) :
    w.Shows (fun mark => TakesString w mark ∨ mark = .parenthesis (after.pos - 1)) after := by
  fun_induction arguments read w with
  | case1 => cases h
  | case2 => cases h
  | case3 read w value behind hvalue hpeek ih =>
      have hfront := (Literal.shows_read hvalue).skipSpaces
      have hcomma := Window.shows_byte hpeek (by decide : Byte.Plain Byte.comma)
      refine ((hfront.trans hcomma).skipSpaces.trans (ih h)).congr ?_
      intro mark
      rw [takesString_of_comma hvalue hpeek, or_false, or_assoc]
  | case4 read w value behind hvalue hpeek hcomma =>
      cases h
      have hfront := (Literal.shows_read hvalue).skipSpaces
      have hclose := Window.shows_parenthesis hpeek (.inr rfl)
      have hpos := (Window.takes_of_peek? hpeek).pos_eq
      refine (hfront.trans hclose).congr ?_
      intro mark
      have hlast : behind.skipSpaces.peek? ≠ some Byte.comma := by
        rw [hpeek]
        decide
      rw [takesString_of_last hvalue hlast, hpos]
      rfl
  | case5 => cases h

/-- An argument list shows the strings in it and the parenthesis behind them. -/
theorem shows_argumentList (h : argumentList w = .ok (args, after)) :
    w.Shows (fun mark => (w.peek? ≠ some Byte.closeParen ∧ TakesString w mark) ∨
      mark = .parenthesis (after.pos - 1)) after := by
  unfold argumentList at h
  split at h
  · next hclose =>
    cases h
    have hpos := (Window.takes_of_peek? hclose).pos_eq
    refine (Window.shows_parenthesis hclose (.inr rfl)).congr ?_
    intro mark
    rw [hpos]
    exact (or_iff_right fun hstring => hstring.1 hclose).symm
  · next hclose =>
    refine (shows_arguments h).congr ?_
    intro mark
    rw [and_iff_right hclose]

/-- A call that is read has a name, an opening parenthesis and an argument list. -/
theorem argumentList_of_read {key : Key} {call : FunctionCall}
    (h : FunctionCall.read key w = .ok (call, after)) :
    w.run Byte.isLetter ≠ [] ∧ (w.skipWhile Byte.isLetter).peek? = some Byte.openParen ∧
      ∃ args, argumentList ((w.skipWhile Byte.isLetter).skip 1).skipSpaces =
        .ok (args, after) := by
  unfold FunctionCall.read Window.failure Window.truncated at h
  dsimp only at h
  split at h
  · split at h <;> cases h
  · next hletters =>
    split at h
    · cases h
    split at h
    · cases h
    · next b hpeek =>
      split at h
      · next hopen =>
        split at h
        · cases h
        · next args behind hargs =>
          cases h
          exact ⟨by simpa [List.isEmpty_iff] using hletters, hopen ▸ hpeek, args, hargs⟩
      · cases h

/-- What a call takes that starts at `w` and is read up to `after`: its two parentheses and the
strings among its arguments. -/
inductive Takes (w after : Window) : Mark → Prop
  | opening : Takes w after (.parenthesis (w.skipWhile Byte.isLetter).pos)
  | argument {u : Window} {mark : Mark} (h : ReadsArgument w u)
      (hstring : Literal.TakesString .argument u mark) : Takes w after mark
  | closing : Takes w after (.parenthesis (after.pos - 1))

/-- **A call shows its parentheses and its strings.** -/
theorem shows_read {key : Key} {call : FunctionCall}
    (h : FunctionCall.read key w = .ok (call, after)) : w.Shows (Takes w after) after := by
  obtain ⟨hname, hopen, args, hargs⟩ := argumentList_of_read h
  have hletters := Window.plain_of_letters fun b hb => Window.all_of_mem_run (w := w) hb
  have hopening := (Window.shows_parenthesis hopen (.inl rfl)).behind_plain
    (w.takes_run Byte.isLetter) hletters
  refine (hopening.trans (shows_argumentList hargs).behind_skipSpaces).congr ?_
  intro mark
  constructor
  · rintro (rfl | ⟨hnonempty, u, hu, hstring⟩ | rfl)
    · exact .opening
    · exact .argument ⟨hname, hopen, hnonempty, hu⟩ hstring
    · exact .closing
  · intro hmark
    cases hmark with
    | opening => exact .inl rfl
    | argument hu hstring => exact .inr (.inl ⟨hu.nonempty, _, hu.argument, hstring⟩)
    | closing => exact .inr (.inr rfl)

end FunctionCall

namespace Machine

variable {limits : Limits} {depth : Nat} {w v : Window} {m next : Machine} {b : UInt8}
  {mark : Mark}

/-! ## Steps -/

/-- What a machine takes in its next step, without what the machine of a group takes. -/
def Marks (m : Machine) (mark : Mark) : Prop :=
  match m.state with
  | .start => m.window.peek? = some Byte.openParen ∧ mark = .parenthesis m.window.pos
  | .call k => ∃ call after, FunctionCall.read k m.window = .ok (call, after) ∧
      FunctionCall.Takes m.window after mark
  | .group _ => ∃ inside, closing? m.window.rest = some inside ∧
      mark = .parenthesis (m.window.pos + inside)
  | .operand _ _ => Literal.TakesString .operand m.window mark
  | .key _ _ => False
  | .subject _ => False
  | .connector => False

/-- The strings and parentheses that a machine takes up to the end of its window: in the step
that comes next, in the group that it enters, and in the steps behind. -/
inductive Consumes (limits : Limits) : Nat → Machine → Mark → Prop
  | here {depth : Nat} {m next : Machine} {b : UInt8} {mark : Mark}
      (hb : m.window.peek? = some b) (hstep : m.step limits depth b = .ok next)
      (h : m.Marks mark) : Consumes limits depth m mark
  | inside {depth : Nat} {m : Machine} {v : Window} {mark : Mark}
      (hv : m.Enters limits depth v) (h : Consumes limits (depth + 1) (start v m.clauses) mark) :
      Consumes limits depth m mark
  | behind {depth : Nat} {m next : Machine} {b : UInt8} {mark : Mark}
      (hb : m.window.peek? = some b) (hstep : m.step limits depth b = .ok next)
      (h : Consumes limits depth next mark) : Consumes limits depth m mark

/-- What a step takes, with what the machine of a group takes inside of it. -/
def StepTakes (limits : Limits) (depth : Nat) (m : Machine) (mark : Mark) : Prop :=
  m.Marks mark ∨
    ∃ v, m.Enters limits depth v ∧ Consumes limits (depth + 1) (start v m.clauses) mark

/-- A step that begins a clause shows the parenthesis if the clause is a group. -/
theorem shows_begin (hstate : m.state = .start) (hb : m.window.peek? = some b)
    (h : m.begin limits b = .ok next) : m.window.Shows m.Marks next.window := by
  have hmarks : ∀ mark, m.Marks mark ↔
      m.window.peek? = some Byte.openParen ∧ mark = .parenthesis m.window.pos := by
    intro mark
    rw [Marks, hstate]
  unfold begin Window.failure at h
  dsimp only at h
  split at h
  · next hopen =>
    split at h
    · cases h
    · cases h
      refine (Window.shows_parenthesis hb (.inl hopen)).congr ?_
      intro mark
      rw [hmarks, and_iff_right (hopen ▸ hb)]
  split at h
  · next hopen hletter =>
    split at h
    · cases h
    · cases h
      refine (Window.shows_byte hb (Byte.plain_of_isLetter hletter)).congr ?_
      intro mark
      rw [hmarks, hb, false_iff]
      exact fun hmark => hopen (Option.some.inj hmark.1)
  split at h <;> cases h

/-- A step in a key shows no marks. -/
theorem shows_continueKey {start : Nat} {letters : List UInt8} (hb : m.window.peek? = some b)
    (h : m.continueKey start letters b = .ok next) :
    m.window.Shows (fun _ => False) next.window := by
  unfold continueKey at h
  split at h
  · next hletter =>
    cases h
    exact Window.shows_byte hb (Byte.plain_of_isLetter hletter)
  split at h
  · cases h
  split at h
  · next hspace =>
    cases h
    exact (Window.shows_byte hb (hspace ▸ (by decide : Byte.Plain Byte.space))).skipSpaces
  split at h
  · next hdot =>
    cases h
    exact (Window.shows_byte hb (hdot ▸ (by decide : Byte.Plain Byte.dot))).skipSpaces
  · cases h
    exact Window.shows_of_plain m.window.takes_nil fun _ hc => absurd hc List.not_mem_nil

/-- A step that reads an operator shows no marks. -/
theorem shows_readOperator {s : Subject} (h : m.readOperator s = .ok next) :
    m.window.Shows (fun _ => False) next.window := by
  unfold readOperator at h
  split at h
  · cases h
  · next o after hread =>
    cases h
    exact (Operator.shows_read hread).skipSpaces

/-- A step that reads a connector shows no marks. -/
theorem shows_readConnector (h : m.readConnector = .ok next) :
    m.window.Shows (fun _ => False) next.window := by
  unfold readConnector at h
  split at h
  · cases h
  · next c after hread =>
    cases h
    exact (Connector.shows_read hread).skipSpaces

/-- A step that reads a value shows its string if it is one. -/
theorem shows_readOperand {s : Subject} {o : Operator} (h : m.readOperand s o = .ok next) :
    m.window.Shows (Literal.TakesString .operand m.window) next.window := by
  unfold readOperand at h
  split at h
  · cases h
  · next value after hread =>
    cases h
    exact (Literal.shows_read hread).skipSpaces

/-- A step that reads a call shows what the call takes: its parentheses, and the strings among
its arguments. -/
theorem shows_readCall {k : Key} (h : m.readCall k = .ok next) :
    m.window.Shows (fun mark => ∃ call after, FunctionCall.read k m.window = .ok (call, after) ∧
      FunctionCall.Takes m.window after mark) next.window := by
  unfold readCall at h
  split at h
  · cases h
  · next call after hread =>
    cases h
    refine (FunctionCall.shows_read hread).skipSpaces.congr ?_
    intro mark
    constructor
    · exact fun hmark => ⟨call, after, hread, hmark⟩
    · rintro ⟨_, _, hother, hmark⟩
      rw [hread] at hother
      cases hother
      exact hmark

/-- The closing parenthesis of a group stands behind its contents. -/
theorem shows_group {inside : Nat} {P : Mark → Prop} (hclosing : closing? w.rest = some inside)
    (hinside : ∀ mark, Sees w.pos (w.rest.take inside) mark ↔ P mark) :
    w.Shows (fun mark => P mark ∨ mark = .parenthesis (w.pos + inside))
      (w.skip (inside + 1)) := by
  obtain ⟨hbalanced, hclose⟩ := balanced_of_closing? hclosing
  have hlength : (w.rest.take inside).length = inside :=
    List.length_take_of_le (Nat.le_of_lt (closing?_lt hclosing))
  have htakes := w.takes_skip inside
  have hpeek : (w.skip inside).peek? = some Byte.closeParen := by
    rw [Window.peek?, Window.skip, List.head?_drop, hclose]
  have hbehind : w.skip (inside + 1) = (w.skip inside).skip 1 := by
    rw [← (htakes.trans (Window.takes_of_peek? hpeek)).skip_eq, List.length_append, hlength]
    rfl
  have hcontents : w.Shows P (w.skip inside) := ⟨_, htakes, hbalanced.outside, hinside⟩
  have hpos : (w.skip inside).pos = w.pos + inside := by
    rw [htakes.pos_eq, hlength]
  rw [hbehind, ← hpos]
  exact hcontents.trans (Window.shows_parenthesis hpeek (.inr rfl))

/-- A group shows what is inside of it, and its closing parenthesis. -/
theorem shows_readGroup {opening : Nat} (hstate : m.state = .group opening)
    (hinside : ∀ v r, m.Enters limits depth v →
      readWindow limits (depth + 1) v m.clauses = .ok r → ∀ mark,
      Consumes limits (depth + 1) (start v m.clauses) mark ↔ Sees v.pos v.rest mark)
    (h : m.step limits depth b = .ok next) :
    m.window.Shows (StepTakes limits depth m) next.window := by
  rw [step_group limits depth b hstate] at h
  split at h
  · cases h
  · next hdepth =>
    split at h
    · cases h
    · next inside hclosing =>
      have hv : m.Enters limits depth ⟨m.window.pos, m.window.rest.take inside⟩ :=
        ⟨opening, inside, hstate, Nat.le_of_not_lt hdepth, hclosing, rfl⟩
      split at h
      · cases h
      · next inner clauses hread =>
        cases h
        have hshows := shows_group hclosing fun mark => (hinside _ _ hv hread mark).symm
        refine hshows.skipSpaces.congr ?_
        intro mark
        rw [StepTakes, Marks, hstate]
        dsimp only
        constructor
        · rintro (hmark | hmark)
          · exact .inr ⟨_, hv, hmark⟩
          · exact .inl ⟨inside, hclosing, hmark⟩
        · rintro (⟨other, hother, hmark⟩ | ⟨v, ⟨_, other, _, _, hother, rfl⟩, hmark⟩)
          · rw [hclosing] at hother
            cases hother
            exact .inr hmark
          · rw [hclosing] at hother
            cases hother
            exact .inl hmark

/-- **A step shows what it takes**, if the machine of a group does. -/
theorem shows_step (hb : m.window.peek? = some b)
    (hinside : ∀ v r, m.Enters limits depth v →
      readWindow limits (depth + 1) v m.clauses = .ok r → ∀ mark,
      Consumes limits (depth + 1) (start v m.clauses) mark ↔ Sees v.pos v.rest mark)
    (h : m.step limits depth b = .ok next) :
    m.window.Shows (StepTakes limits depth m) next.window := by
  -- Only in front of a group there is another machine to be entered.
  have hown : (∀ opening, m.state ≠ .group opening) → m.window.Shows m.Marks next.window →
      m.window.Shows (StepTakes limits depth m) next.window := by
    intro hstate hshows
    refine hshows.congr fun mark => (or_iff_left ?_).symm
    rintro ⟨v, hv, -⟩
    obtain ⟨opening, hgroup⟩ := hv.state
    exact hstate opening hgroup
  cases hstate : m.state with
  | group opening => exact shows_readGroup hstate hinside h
  | start =>
      rw [step_start hstate] at h
      exact hown (by simp [hstate]) (shows_begin hstate hb h)
  | key start letters =>
      rw [step_key hstate] at h
      refine hown (by simp [hstate]) ((shows_continueKey hb h).congr fun mark => ?_)
      rw [Marks, hstate]
  | subject s =>
      rw [step_subject hstate] at h
      refine hown (by simp [hstate]) ((shows_readOperator h).congr fun mark => ?_)
      rw [Marks, hstate]
  | call k =>
      rw [step_call hstate] at h
      refine hown (by simp [hstate]) ((shows_readCall h).congr fun mark => ?_)
      rw [Marks, hstate]
  | operand s o =>
      rw [step_operand hstate] at h
      refine hown (by simp [hstate]) ((shows_readOperand h).congr fun mark => ?_)
      rw [Marks, hstate]
  | connector =>
      rw [step_connector hstate] at h
      refine hown (by simp [hstate]) ((shows_readConnector h).congr fun mark => ?_)
      rw [Marks, hstate]

/-! ## Runs -/

/-- At the end of its window a machine takes nothing more. -/
theorem not_consumes_of_atEnd (hend : m.window.peek? = none) :
    ¬Consumes limits depth m mark := by
  intro h
  cases h with
  | here hb _ _ => exact absurd (hend.symm.trans hb) (Option.some_ne_none _).symm
  | inside hv _ =>
      have hlt := hv.length_lt
      rw [Window.peek?_eq_none_iff.mp hend] at hlt
      exact Nat.not_lt_zero _ hlt
  | behind hb _ _ => exact absurd (hend.symm.trans hb) (Option.some_ne_none _).symm

/-- What a machine takes it takes in its next step or behind it. -/
theorem consumes_iff_of_step (hb : m.window.peek? = some b)
    (hstep : m.step limits depth b = .ok next) :
    Consumes limits depth m mark ↔
      StepTakes limits depth m mark ∨ Consumes limits depth next mark := by
  constructor
  · intro h
    cases h with
    | here _ _ hmark => exact .inl (.inl hmark)
    | inside hv hmark => exact .inl (.inr ⟨_, hv, hmark⟩)
    | behind hother hotherStep hmark =>
        rw [hb] at hother
        cases hother
        rw [hstep] at hotherStep
        cases hotherStep
        exact .inr hmark
  · rintro ((hmark | ⟨v, hv, hmark⟩) | hmark)
    · exact .here hb hstep hmark
    · exact .inside hv hmark
    · exact .behind hb hstep hmark

/-- **What a run takes is what the scan sees**, if the run comes to its end. -/
theorem consumes_iff_of_run (depth : Nat) (m : Machine) :
    ∀ r, run limits depth m = .ok r → ∀ mark,
      Consumes limits depth m mark ↔ Sees m.window.pos m.window.rest mark := by
  refine run_induction (motive := fun depth m result => ∀ r, result = .ok r → ∀ mark,
    Consumes limits depth m mark ↔ Sees m.window.pos m.window.rest mark) ?_ ?_ ?_ depth m
  · intro depth m hend r _ mark
    have hnothing : ¬Sees m.window.pos m.window.rest mark := by
      rw [Window.peek?_eq_none_iff.mp hend]
      exact not_sees_of_plain fun _ hc => absurd hc List.not_mem_nil
    exact iff_of_false (not_consumes_of_atEnd hend) hnothing
  · intro depth m b e _ _ _ r herror
    cases herror
  · intro depth m b next hb hnested hstep ih r hok mark
    -- The machine of a group starts behind the blanks of its window, in which nothing is seen.
    have hinside : ∀ v r, m.Enters limits depth v →
        readWindow limits (depth + 1) v m.clauses = .ok r → ∀ mark,
        Consumes limits (depth + 1) (start v m.clauses) mark ↔ Sees v.pos v.rest mark := by
      intro v r hv hread mark
      rw [hnested v m.clauses hv.length_lt r hread]
      exact Window.sees_skipSpaces
    rw [consumes_iff_of_step hb hstep, (shows_step hb hinside hstep).sees, ih r hok mark]

/-- A window that is read to its end is consumed mark by mark as the scan sees it. -/
theorem consumes_iff_of_readWindow {clauses : Nat} {r : Query × Nat}
    (h : readWindow limits depth w clauses = .ok r) (mark : Mark) :
    Consumes limits depth (start w clauses) mark ↔ Sees w.pos w.rest mark :=
  (consumes_iff_of_run depth _ r h mark).trans Window.sees_skipSpaces

/-! ## Groups -/

/-- A group that the scan does not close is refused at its opening parenthesis. -/
theorem run_of_unclosed {opening : Nat} (hstate : m.state = .group opening)
    (hdepth : depth + 1 ≤ limits.depth.toNat) (hclosing : closing? m.window.rest = none) :
    run limits depth m = .error ⟨.unmatchedGrouping, opening, .group, State.groupHint⟩ := by
  cases hb : m.window.peek? with
  | none =>
      rw [run_of_atEnd hb, finish, hstate]
  | some b =>
      apply run_of_error hb
      rw [step_group limits depth b hstate, if_neg (Nat.not_lt.mpr hdepth), hclosing]

end Machine

/-- What stands behind an opening parenthesis of the window, and where. -/
theorem Window.drop_of_open {w : Window} {k : Nat} (hopen : w.rest[k]? = some Byte.openParen) :
    w.rest.drop k = Byte.openParen :: (w.skip (k + 1)).rest ∧
      (w.skip (k + 1)).pos = w.pos + k + 1 := by
  obtain ⟨hlt, hbyte⟩ := List.getElem?_eq_some_iff.mp hopen
  refine ⟨?_, ?_⟩
  · rw [List.drop_eq_getElem_cons hlt, hbyte]
    rfl
  · rw [(w.takes_skip (k + 1)).pos_eq, List.length_take_of_le hlt, Nat.add_assoc]

/-- What stands between the parentheses at the offsets `k` and `k + c` of the window. -/
def Window.between (w : Window) (k c : Nat) : Window :=
  ⟨w.pos + k + 1, (w.rest.drop (k + 1)).take (c - 1)⟩

/-- A machine that has just read the parenthesis at offset `k` of the window. -/
def Machine.behindOpening (w : Window) (k : Nat) (assembly : Assembly) (clauses : Nat) :
    Machine :=
  ⟨w.skip (k + 1), .group (w.pos + k), assembly, clauses⟩

/-- **The scan finds the closing parenthesis of a group, and divides the group as the reading
does.**  From an opening parenthesis of a window on, the scan stops at the first byte at which
as many parentheses outside of strings have been closed as opened, or there is none and the
group is refused at its opening parenthesis; it never takes one off a counter that is zero.
Its counter and its quoting, in front of every byte on its way, are those that tell what it
sees.  Where the contents of the group can be read, the strings and the parentheses that the
machines take there are exactly those that the scan sees between the two parentheses. -/
theorem scan_agrees_with_reading (w : Window) (k : Nat)
    (hopen : w.rest[k]? = some Byte.openParen) :
    (∀ c, scan 0 (w.pos + k) .outside (w.rest.drop k) = .closed (w.pos + k + c) ↔
      ClosesAt (w.rest.drop k) c) ∧
    (scan 0 (w.pos + k) .outside (w.rest.drop k) = .unclosed ↔
      ∀ c, ¬ClosesAt (w.rest.drop k) c) ∧
    scan 0 (w.pos + k) .outside (w.rest.drop k) ≠ .dropped ∧
    (scan 0 (w.pos + k) .outside (w.rest.drop k)).found? =
      (closing? (w.skip (k + 1)).rest).map (w.pos + k + 1 + ·) ∧
    (∀ c, ClosesAt (w.rest.drop k) c → ∀ j, j < c → ∃ n : Nat,
      balance ((w.rest.drop k).take (j + 1)) = n + 1 ∧
        closing? (w.skip (k + 1)).rest = closingFrom? (n + 1) j
          (quotingAt (w.rest.drop k) (j + 1)) ((w.skip (k + 1)).rest.drop j)) ∧
    ∀ (limits : Limits) (depth clauses : Nat) (assembly : Assembly),
      depth + 1 ≤ limits.depth.toNat →
      ((∀ c, ¬ClosesAt (w.rest.drop k) c) →
        Machine.run limits depth (.behindOpening w k assembly clauses) =
          .error ⟨.unmatchedGrouping, w.pos + k, .group, State.groupHint⟩) ∧
      ∀ c, ClosesAt (w.rest.drop k) c →
        (Machine.behindOpening w k assembly clauses).Enters limits depth (w.between k c) ∧
        ∀ r, Machine.readWindow limits (depth + 1) (w.between k c) clauses = .ok r →
          ∀ mark, Machine.Consumes limits (depth + 1) (.start (w.between k c) clauses) mark ↔
            Sees (w.pos + k) (w.rest.drop k) mark ∧
              w.pos + k < mark.start ∧ mark.start < w.pos + k + c := by
  obtain ⟨hdrop, hpos⟩ := Window.drop_of_open hopen
  rw [hdrop]
  have hcases := scan_open_cases (w.pos + k) (w.skip (k + 1)).rest
  refine ⟨?_, ?_, scan_ne_dropped 0 _ _ _, found?_scan_open _ _, ?_, ?_⟩
  · intro c
    rcases hcases with ⟨d, hd, hscan⟩ | ⟨hnever, hscan⟩
    · rw [hscan]
      constructor
      · intro hclosed
        have heq := Nat.add_left_cancel (Outcome.closed.inj hclosed)
        exact heq ▸ hd
      · intro hc
        rw [hd.unique hc]
    · rw [hscan]
      exact ⟨fun hclosed => Outcome.noConfusion hclosed, fun hc => absurd hc (hnever c)⟩
  · rcases hcases with ⟨d, hd, hscan⟩ | ⟨hnever, hscan⟩
    · rw [hscan]
      exact ⟨fun hunclosed => Outcome.noConfusion hunclosed, fun hnever => absurd hd (hnever d)⟩
    · exact ⟨fun _ => hnever, fun _ => hscan⟩
  · intro c hc j hj
    obtain ⟨i, rfl⟩ := Nat.exists_eq_add_one_of_ne_zero (Nat.pos_iff_ne_zero.mp hc.pos)
    exact closing?_goes_on (closing?_eq_some_iff.mpr hc) (Nat.le_of_lt_succ hj)
  · intro limits depth clauses assembly hdepth
    refine ⟨?_, ?_⟩
    · intro hnever
      exact Machine.run_of_unclosed rfl hdepth (closing?_eq_none_iff.mpr hnever)
    · intro c hc
      obtain ⟨i, rfl⟩ := Nat.exists_eq_add_one_of_ne_zero (Nat.pos_iff_ne_zero.mp hc.pos)
      have hclosing := closing?_eq_some_iff.mpr hc
      have hbetween : w.between k (i + 1) =
          ⟨(w.skip (k + 1)).pos, (w.skip (k + 1)).rest.take i⟩ := by
        rw [hpos]
        rfl
      refine ⟨⟨w.pos + k, i, rfl, hdepth, hclosing, hbetween⟩, ?_⟩
      intro r hread mark
      rw [Machine.consumes_iff_of_readWindow hread, ← sees_inside hclosing]
      rfl

/-- The expression `a.f(")")==1`, with a parenthesis in a string. -/
def Expression.quotedParenthesis : Expression :=
  ⟨0, .comparison
    ⟨.call "a" 0 ⟨"f", 0, [⟨0, .string (String.ofList [')']),
      Byte.quote :: ([Byte.closeParen] ++ [Byte.quote]), 0⟩]⟩,
      0, .equals, 0, .integer 1, Byte.sign false ++ [0x31]⟩, 0⟩

theorem Expression.quotedParenthesis_wellFormed : quotedParenthesis.WellFormed :=
  ⟨⟨by decide, by decide, List.forall_mem_singleton.mpr
    (.string (.plain (by decide) (by decide) .nil))⟩, .integer false (by decide) (by decide)⟩

/-- In `(a.f(")")==1)` the group ends behind the comparison.  The machine inside takes the
string `")"`, and the parenthesis in the string is one for neither of the two. -/
theorem scan_agrees_with_reading_quotedParenthesis :
    let contents := Expression.quotedParenthesis.bytes
    let w : Window := ⟨0, Byte.openParen :: (contents ++ [Byte.closeParen])⟩
    w.rest[0]? = some Byte.openParen ∧ ClosesAt w.rest 12 ∧
      (Machine.behindOpening w 0 .empty 1).Enters .standard 0 (w.between 0 12) ∧
      (∃ r, Machine.readWindow .standard 1 (w.between 0 12) 1 = .ok r) ∧
      Machine.Consumes .standard 1 (.start (w.between 0 12) 1) (.string 5 8) ∧
      ¬Machine.Consumes .standard 1 (.start (w.between 0 12) 1) (.parenthesis 6) := by
  intro contents w
  obtain ⟨hscan, -, -, -, -, hgroup⟩ := scan_agrees_with_reading w 0 rfl
  have hcloses : ClosesAt w.rest 12 := (hscan 12).mp rfl
  obtain ⟨henters, hconsumes⟩ := (hgroup .standard 0 1 .empty (by decide)).2 12 hcloses
  have hread : Machine.readWindow .standard 1 (w.between 0 12) 1 =
      .ok (Expression.quotedParenthesis.query 1, 2) :=
    Machine.readWindow_expression Expression.quotedParenthesis_wellFormed rfl 1
  have hstring : StringAt w.rest 5 8 := by
    refine ⟨by decide, by decide, rfl, rfl, ?_, rfl⟩
    intro j hlow hhigh
    obtain rfl | rfl : j = 6 ∨ j = 7 := by omega
    · exact Quoting.noConfusion
    · exact Quoting.noConfusion
  refine ⟨rfl, hcloses, henters, ⟨_, hread⟩, ?_, ?_⟩
  · exact (hconsumes _ hread _).mpr ⟨⟨5, 8, rfl, rfl, hstring⟩, by decide, by decide⟩
  · intro hparenthesis
    obtain ⟨⟨j, hj, hcounted⟩, -, -⟩ := (hconsumes _ hread _).mp hparenthesis
    obtain rfl : 6 = j := hj.trans (Nat.zero_add j)
    exact Quoting.noConfusion hcounted.outside

end RecordFilter
