import RecordFilter.Reading.Call
import RecordFilter.Proofs.Grammar.Phrase
import RecordFilter.Proofs.Reading.Literal

/-!
# What the reader of calls accepts

The reader of arguments takes one literal after the other; the blanks and the comma
behind each decide how it goes on.  It accepts exactly the argument lists of the
grammar, and so the reader of calls accepts exactly the calls.

* `read_eq_ok_iff` — the reader of calls.
-/

namespace RecordFilter.FunctionCall

variable {w after : Window} {read args : List Value}

/-- The bytes of further arguments, each behind a comma, and of the end of the list. -/
def restBytes (forms : List ArgumentForm) : List UInt8 :=
  forms.flatMap (fun a => Byte.comma :: a.bytes) ++ [Byte.closeParen]

theorem restBytes_cons (a : ArgumentForm) (forms : List ArgumentForm) :
    restBytes (a :: forms) = Byte.comma :: (Byte.spaces a.before ++
      (a.literal ++ Byte.spaces a.behind ++ restBytes forms)) := by
  simp [restBytes, ArgumentForm.bytes]

/-- Arguments that are read were written, with blanks around each. -/
theorem takes_of_arguments (h : arguments read w = .ok (args, after)) :
    ∃ literal value behind, ∃ forms : List ArgumentForm, value.Writes literal ∧
      (∀ a ∈ forms, a.WellFormed) ∧
      w.Takes (literal ++ Byte.spaces behind ++ restBytes forms) after ∧
      args = read.reverse ++ value :: forms.map ArgumentForm.value := by
  fun_induction arguments read w with
  | case1 => cases h
  | case2 => cases h
  | case3 read w value behind hvalue hpeek ih =>
      obtain ⟨text, htext, hwrites, -⟩ := Literal.read_eq_ok_iff.mp hvalue
      obtain ⟨n, hn⟩ := behind.takes_spaces
      obtain ⟨k, hk⟩ := (behind.skipSpaces.skip 1).takes_spaces
      obtain ⟨literal, next, gap, forms, hnext, hforms, htakes, rfl⟩ := ih h
      refine ⟨text, value, n, ⟨k, next, literal, gap⟩ :: forms, hwrites, ?_, ?_, by simp⟩
      · intro a ha
        rcases List.mem_cons.mp ha with rfl | ha
        · exact hnext
        · exact hforms a ha
      · rw [restBytes_cons]
        exact (htext.trans hn).trans
          ((Window.takes_of_peek? hpeek).trans (hk.trans htakes))
  | case4 read w value behind hvalue hpeek hcomma =>
      cases h
      obtain ⟨text, htext, hwrites, -⟩ := Literal.read_eq_ok_iff.mp hvalue
      obtain ⟨n, hn⟩ := behind.takes_spaces
      refine ⟨text, value, n, [], hwrites, by simp, ?_, by simp⟩
      exact (htext.trans hn).trans (Window.takes_of_peek? hpeek)
  | case5 => cases h

/-- Whatever follows the blanks behind an argument delimits it. -/
theorem delimits_of_takes {behind : Nat} {forms : List ArgumentForm}
    (h : w.Takes (Byte.spaces behind ++ restBytes forms) after) :
    Literal.Delimits .argument w := by
  intro b hb
  cases behind with
  | succ n =>
      rw [Window.Takes.peek?_cons (b := Byte.space) h] at hb
      cases hb
      rfl
  | zero =>
      cases forms with
      | nil =>
          rw [Window.Takes.peek?_cons (b := Byte.closeParen) h] at hb
          cases hb
          rfl
      | cons a forms =>
          rw [restBytes_cons] at h
          rw [Window.Takes.peek?_cons (b := Byte.comma) h] at hb
          cases hb
          rfl

/-- The byte behind the blanks behind an argument. -/
theorem skipSpaces_of_takes {behind : Nat} {forms : List ArgumentForm}
    (h : w.Takes (Byte.spaces behind ++ restBytes forms) after) :
    w.skipSpaces.Takes (restBytes forms) after := by
  obtain ⟨middle, hspaces, hrest⟩ := h.split
  rw [hspaces.skipSpaces_eq]
  · exact hrest
  · cases forms with
    | nil => rw [Window.Takes.peek?_cons (b := Byte.closeParen) hrest]; decide
    | cons a forms =>
        rw [restBytes_cons] at hrest
        rw [hrest.peek?_cons]
        decide

/-- An argument is read up to what follows the blanks behind it: a comma, behind which the
arguments go on, or the end of the list. -/
theorem arguments_of_literal {literal : List UInt8} {value : Value} {behind : Nat}
    {forms : List ArgumentForm} (read : List Value) (hwrites : value.Writes literal)
    (h : w.Takes (literal ++ Byte.spaces behind ++ restBytes forms) after) :
    ∃ next : Window, next.Takes (restBytes forms) after ∧
      (next.peek? = some Byte.comma →
        arguments read w = arguments (value :: read) (next.skip 1).skipSpaces) ∧
      (next.peek? = some Byte.closeParen →
        arguments read w = .ok ((value :: read).reverse, next.skip 1)) := by
  rw [List.append_assoc] at h
  obtain ⟨middle, hliteral, hrest⟩ := h.split
  have hread : Literal.read .argument w = .ok (value, middle) :=
    Literal.read_eq_ok_iff.mpr ⟨literal, hliteral, hwrites, delimits_of_takes hrest⟩
  refine ⟨middle.skipSpaces, skipSpaces_of_takes hrest, ?_, ?_⟩
  · intro hcomma
    rw [arguments_eq, hread]
    dsimp only
    rw [hcomma]
    exact if_pos rfl
  · intro hclose
    rw [arguments_eq, hread]
    dsimp only
    rw [hclose]
    dsimp only
    rw [if_neg (by decide), if_pos rfl]

/-- Arguments that are written are read, up to the closing parenthesis. -/
theorem arguments_of_takes {literal : List UInt8} {value : Value} {behind : Nat}
    {forms : List ArgumentForm} (hwrites : value.Writes literal)
    (hforms : ∀ a ∈ forms, a.WellFormed)
    (h : w.Takes (literal ++ Byte.spaces behind ++ restBytes forms) after) :
    arguments read w = .ok (read.reverse ++ value :: forms.map ArgumentForm.value, after) := by
  induction forms generalizing w read literal value behind with
  | nil =>
      obtain ⟨next, hclose, -, hread⟩ := arguments_of_literal read hwrites h
      rw [hread (Window.Takes.peek?_cons hclose),
        show next.skip 1 = after from hclose.skip_eq]
      simp
  | cons a forms ih =>
      obtain ⟨next, hcomma, hread, -⟩ := arguments_of_literal read hwrites h
      rw [restBytes_cons] at hcomma
      obtain ⟨further, hone, hmore⟩ := Window.Takes.split (s := [Byte.comma]) hcomma
      obtain ⟨first, hspaces, hliteral⟩ := hmore.split
      have ha : a.value.Writes a.literal := hforms a List.mem_cons_self
      have hfirst : further.skipSpaces = first := by
        apply hspaces.skipSpaces_eq
        obtain ⟨_, hl, -⟩ := (List.append_assoc .. ▸ hliteral).split
        exact (Literal.peek?_of_writes ha hl).1
      rw [hread hcomma.peek?_cons, show next.skip 1 = further from hone.skip_eq, hfirst,
        ih ha (fun a' ha' => hforms a' (List.mem_cons_of_mem a ha')) hliteral]
      simp

/-- What stands between the parentheses starts with the blanks in front of the first argument.
-/
theorem argumentBytes_cons (blank : Nat) (a : ArgumentForm) (forms : List ArgumentForm) :
    CallForm.argumentBytes blank (a :: forms) ++ [Byte.closeParen] =
      Byte.spaces a.before ++ (a.literal ++ Byte.spaces a.behind ++ restBytes forms) := by
  simp [CallForm.argumentBytes, restBytes, ArgumentForm.bytes]

/-- **The reader of argument lists, exactly**, behind the opening parenthesis. -/
theorem argumentList_eq_ok_iff :
    argumentList w.skipSpaces = .ok (args, after) ↔
      ∃ blank, ∃ forms : List ArgumentForm, (∀ a ∈ forms, a.WellFormed) ∧
        args = forms.map ArgumentForm.value ∧
        w.Takes (CallForm.argumentBytes blank forms ++ [Byte.closeParen]) after := by
  unfold argumentList
  constructor
  · intro h
    obtain ⟨n, hn⟩ := w.takes_spaces
    split at h
    · next hclose =>
      cases h
      exact ⟨n, [], by simp, rfl, hn.trans (Window.takes_of_peek? hclose)⟩
    · obtain ⟨literal, value, behind, forms, hwrites, hforms, htakes, rfl⟩ :=
        takes_of_arguments h
      refine ⟨0, ⟨n, value, literal, behind⟩ :: forms, ?_, rfl, ?_⟩
      · intro a ha
        rcases List.mem_cons.mp ha with rfl | ha
        · exact hwrites
        · exact hforms a ha
      · rw [argumentBytes_cons]
        exact hn.trans htakes
  · intro h
    obtain ⟨blank, forms, hforms, rfl, htakes⟩ := h
    cases forms with
    | nil =>
        obtain ⟨middle, hspaces, hclose⟩ := htakes.split
        have hmiddle : w.skipSpaces = middle :=
          hspaces.skipSpaces_eq (by rw [hclose.peek?_cons]; decide)
        rw [hmiddle, if_pos hclose.peek?_cons, show middle.skip 1 = after from hclose.skip_eq]
        rfl
    | cons a forms =>
        rw [argumentBytes_cons] at htakes
        obtain ⟨middle, hspaces, hrest⟩ := htakes.split
        have ha : a.value.Writes a.literal := hforms a List.mem_cons_self
        obtain ⟨_, hliteral, -⟩ := (List.append_assoc .. ▸ hrest).split
        have hfirst := Literal.peek?_of_writes ha hliteral
        rw [hspaces.skipSpaces_eq hfirst.1, if_neg hfirst.2.1,
          arguments_of_takes ha (fun a' ha' => hforms a' (List.mem_cons_of_mem a ha')) hrest]
        rfl

/-- A call that is read was written. -/
theorem takes_of_read {key : Key} {call : FunctionCall}
    (h : FunctionCall.read key w = .ok (call, after)) :
    ∃ c : CallForm, c.WellFormed ∧ w.Takes c.bytes after ∧ call = c.tree key w.pos := by
  unfold FunctionCall.read at h
  dsimp only at h
  split at h
  · split at h <;> cases h
  · next hletters =>
    have hne : w.run Byte.isLetter ≠ [] := by simpa [List.isEmpty_iff] using hletters
    obtain ⟨name, hname, hbytes⟩ :=
      exists_name_of_letters hne fun b hb => Window.all_of_mem_run hb
    rw [← hbytes, readName_encode] at h
    dsimp only at h
    split at h
    · cases h
    · next b hpeek =>
      split at h
      · next hopen =>
        subst hopen
        split at h
        · cases h
        · next args behind hargs =>
          cases h
          obtain ⟨blank, forms, hforms, rfl, htakes⟩ := argumentList_eq_ok_iff.mp hargs
          have hall : w.Takes (CallForm.bytes ⟨name, blank, forms⟩) after := by
            rw [CallForm.bytes, hbytes]
            exact (w.takes_run Byte.isLetter).trans
              ((Window.takes_of_peek? hpeek).trans htakes)
          exact ⟨⟨name, blank, forms⟩, ⟨hname, hforms⟩, hall, by
            rw [CallForm.tree, ← hall.pos_eq]⟩
      · cases h

/-- A call that is written is read. -/
theorem read_of_takes {key : Key} {c : CallForm} (hc : c.WellFormed)
    (h : w.Takes c.bytes after) :
    FunctionCall.read key w = .ok (c.tree key w.pos, after) := by
  obtain ⟨behind, hname, hrest⟩ := h.split
  have hpeek := hrest.peek?_cons
  obtain ⟨hrun, hskip⟩ := hname.run_eq hc.name.letters_encode (by
    intro b hb
    obtain rfl := hrest.eq_of_peek? hb
    rfl)
  obtain ⟨middle, hopen, hargs⟩ := Window.Takes.split (s := [Byte.openParen]) hrest
  have hlist := argumentList_eq_ok_iff.mpr ⟨c.blank, c.args, hc.args, rfl, hargs⟩
  unfold FunctionCall.read
  dsimp only
  rw [hrun, hskip, if_neg (by simpa [List.isEmpty_iff] using hc.name.encode_ne_nil),
    readName_encode, hpeek]
  dsimp only
  rw [if_pos rfl, show behind.skip 1 = middle from hopen.skip_eq, hlist]
  dsimp only
  rw [CallForm.tree, ← h.pos_eq]

/-- **The reader of calls, exactly.** -/
theorem read_eq_ok_iff {key : Key} {call : FunctionCall} :
    FunctionCall.read key w = .ok (call, after) ↔
      ∃ c : CallForm, c.WellFormed ∧ w.Takes c.bytes after ∧ call = c.tree key w.pos := by
  constructor
  · exact takes_of_read
  · intro h
    obtain ⟨c, hc, htakes, rfl⟩ := h
    exact read_of_takes hc htakes

end RecordFilter.FunctionCall
