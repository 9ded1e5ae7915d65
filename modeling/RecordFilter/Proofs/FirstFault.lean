import RecordFilter.Proofs.Machine.Failure
import RecordFilter.Proofs.Reading.String

/-!
# The first fault of a string

Strings stand behind operators and among the arguments of functions.  Wherever the reading of an
input comes to a string that cannot be read, it fails with what the reader of strings fails with:
`ReadsString` says that it comes there, and nothing that was read before can change the error.

So an error is about the first fault of the string exactly if no fault is masked there.  Bytes
that are no character are told of only behind the closing quote, and therefore not at all if an
unknown escape follows or the quote is missing.

* `parseWith_tellsFirst_iff` — what a reading that comes to a string fails with, and whether that
  is the first fault of the string.
-/

namespace RecordFilter

namespace FunctionCall

/-- The arguments that start at `w` are read up to one that starts at `u`. -/
inductive ArgumentAt : Window → Window → Prop
  | here {w : Window} : ArgumentAt w w
  | next {w u behind : Window} {value : Value}
      (hvalue : Literal.read .argument w = .ok (value, behind))
      (hcomma : behind.skipSpaces.peek? = some Byte.comma)
      (h : ArgumentAt (behind.skipSpaces.skip 1).skipSpaces u) : ArgumentAt w u

/-- The call that starts at `w` is read up to an argument that starts at `u`. -/
structure ReadsArgument (w u : Window) : Prop where
  name : w.run Byte.isLetter ≠ []
  opening : (w.skipWhile Byte.isLetter).peek? = some Byte.openParen
  nonempty : ((w.skipWhile Byte.isLetter).skip 1).skipSpaces.peek? ≠ some Byte.closeParen
  argument : ArgumentAt ((w.skipWhile Byte.isLetter).skip 1).skipSpaces u

variable {w u : Window} {e : SyntaxError}

/-- Arguments cannot be read if one of them cannot. -/
theorem ArgumentAt.arguments_eq_error (h : ArgumentAt w u)
    (he : Literal.read .argument u = .error e) (read : List Value) :
    arguments read w = .error e := by
  induction h generalizing read with
  | here => rw [arguments_eq, he]
  | next hvalue hcomma _ ih =>
      rw [arguments_eq, hvalue]
      dsimp only
      rw [hcomma]
      dsimp only
      rw [if_pos rfl, ih he]

/-- A call that is read up to an argument has a name, and so a first byte. -/
theorem ReadsArgument.exists_peek? (h : ReadsArgument w u) : ∃ b, w.peek? = some b := by
  apply Option.ne_none_iff_exists'.mp
  intro hend
  apply h.name
  rw [Window.run, Window.peek?_eq_none_iff.mp hend]
  rfl

/-- A call cannot be read if one of its arguments cannot. -/
theorem ReadsArgument.read_eq_error (h : ReadsArgument w u)
    (he : Literal.read .argument u = .error e) (key : Key) :
    FunctionCall.read key w = .error e := by
  obtain ⟨name, -, hname⟩ :=
    exists_name_of_letters h.name fun b hb => Window.all_of_mem_run hb
  have hlist : argumentList ((w.skipWhile Byte.isLetter).skip 1).skipSpaces = .error e := by
    rw [argumentList, if_neg h.nonempty]
    exact h.argument.arguments_eq_error he []
  have hletters : (w.run Byte.isLetter).isEmpty = false := by
    simpa [List.isEmpty_eq_false_iff] using h.name
  unfold FunctionCall.read
  dsimp only
  rw [hletters, ← hname, readName_encode, h.opening]
  dsimp only
  rw [if_neg (by decide), if_pos rfl, hlist]

end FunctionCall

/-- A literal that starts with a quote cannot be read if the string behind it cannot. -/
theorem Literal.read_eq_error_of_string {place : Place} {w opened : Window} {e : SyntaxError}
    (h : w.Takes [Byte.quote] opened) (he : string place opened = .error e) :
    Literal.read place w = .error e := by
  have hopened : (⟨w.pos + 1, opened.rest⟩ : Window) = opened :=
    Window.Takes.unique ⟨h.rest_eq, rfl⟩ h
  unfold Literal.read unended
  rw [h.rest_eq]
  dsimp only [List.singleton_append]
  rw [if_pos rfl, hopened, he]

namespace Machine

/-- While `input` is read, a string is come to whose opening quote stands in front of the window:
behind an operator, or among the arguments of a function. -/
inductive ReadsString (limits : Limits) (input : List UInt8) : Place → Window → Prop
  | operand {depth : Nat} {w opened : Window} {m : Machine} {s : Subject} {o : Operator}
      (hm : UnderWay limits input depth w m) (hstate : m.state = .operand s o)
      (hquote : m.window.Takes [Byte.quote] opened) : ReadsString limits input .operand opened
  | argument {depth : Nat} {w u opened : Window} {m : Machine} {k : Key}
      (hm : UnderWay limits input depth w m) (hstate : m.state = .call k)
      (hargument : FunctionCall.ReadsArgument m.window u)
      (hquote : u.Takes [Byte.quote] opened) : ReadsString limits input .argument opened

variable {limits : Limits} {input : List UInt8} {place : Place} {opened : Window}
  {e : SyntaxError}

/-- The reading fails as the reader of the string does. -/
theorem ReadsString.parseWith_eq (h : ReadsString limits input place opened)
    (he : Literal.string place opened = .error e) : parseWith limits input = .error e := by
  cases h with
  | @operand depth w _ m s o hm hstate hquote =>
      have hread := Literal.read_eq_error_of_string hquote he
      refine hm.parseWith_eq (run_of_error hquote.peek?_cons ?_)
      rw [step_operand hstate]
      exact readOperand_eq_error_iff.mpr hread
  | @argument depth w u _ m k hm hstate hargument hquote =>
      have hread :=
        hargument.read_eq_error (Literal.read_eq_error_of_string hquote he) k
      obtain ⟨b, hb⟩ := hargument.exists_peek?
      refine hm.parseWith_eq (run_of_error hb ?_)
      rw [step_call hstate]
      exact readCall_eq_error_iff.mpr hread

end Machine

/-- **What a reading that comes to a string fails with.**  It is what the reader of the string
fails with, and it is the first fault of the string exactly if no fault is masked there. -/
theorem parseWith_tellsFirst_iff {limits : Limits} {input : List UInt8} {place : Place}
    {opened : Window} {e : SyntaxError} (h : Machine.ReadsString limits input place opened)
    (he : Literal.string place opened = .error e) :
    parseWith limits input = .error e ∧ Literal.StringFails place opened e ∧
      (Literal.TellsFirst opened e ↔ ¬Quoted.Masked opened.rest) := by
  have hfails := Literal.string_eq_error_iff.mp he
  exact ⟨h.parseWith_eq he, hfails, hfails.tellsFirst_iff⟩

/-- The string argument in `(a.f(1,"x\q"))` has an unknown escape and no fault in front of it. -/
theorem parseWith_tellsFirst_argument :
    let input := Utf8.encode "(a.f(1,\"x\\q\"))"
    let opened : Window := ⟨8, Utf8.encode "x\\q\")"⟩
    let error : SyntaxError := ⟨.invalidLiteral, 9, .call, "one of \\\", \\\\, \\n, \\t"⟩
    Machine.ReadsString .standard input .argument opened ∧
      Literal.string .argument opened = .error error ∧
      parseWith .standard input = .error error ∧ Literal.TellsFirst opened error := by
  intro input opened error
  let rest (k : Nat) : Window := ⟨k, (input.drop k).take (13 - k)⟩
  have hgroup : Machine.UnderWay .standard input 0 ⟨0, input⟩
      ⟨⟨1, input.drop 1⟩, .group 0, .empty, 1⟩ :=
    .step (.start (by decide)) rfl (by with_unfolding_all rfl)
  have hinside : Machine.UnderWay .standard input 1 (rest 1) ⟨rest 1, .start, .empty, 1⟩ :=
    .enter hgroup ⟨0, 12, rfl, by decide, by decide, rfl⟩
  have hkey : Machine.UnderWay .standard input 1 (rest 1)
      ⟨rest 2, .key 1 [0x61], .empty, 2⟩ :=
    .step hinside rfl (by with_unfolding_all rfl)
  have hcall : Machine.UnderWay .standard input 1 (rest 1)
      ⟨rest 3, .call ⟨"a", ⟨1, 2⟩⟩, .empty, 2⟩ :=
    .step hkey rfl (by with_unfolding_all rfl)
  have hfirst : Literal.read .argument (rest 5) = .ok (.integer 1, rest 6) := by
    with_unfolding_all rfl
  have hargument : FunctionCall.ReadsArgument (rest 3) (rest 7) :=
    ⟨by decide, by decide, by decide, .next hfirst (by decide) .here⟩
  have hreads : Machine.ReadsString .standard input .argument opened :=
    .argument hcall rfl hargument ⟨by decide, rfl⟩
  have hstring : Literal.string .argument opened = .error error := by
    with_unfolding_all rfl
  obtain ⟨hparse, -, htells⟩ := parseWith_tellsFirst_iff hreads hstring
  refine ⟨hreads, hstring, hparse, htells.mpr ?_⟩
  rintro ⟨k, hbreaks, -⟩
  have hdecode : Utf8.decode (Quoted.upToClose opened.rest) = .ok ['x', '\\', 'q', '"'] :=
    Utf8.decode_eq_ok_iff.mpr (by decide)
  rw [Utf8.decode_eq_error_iff.mpr hbreaks.stopsAt] at hdecode
  cases hdecode

/-- Behind `a == ` and a quote stand the byte `0xFF`, which is part of no character, and the
unknown escape `\q`.  The byte is the first fault, but the error is about the escape. -/
theorem not_tellsFirst_of_maskedByte :
    let input : List UInt8 := [0x61, 0x20, 0x3D, 0x3D, 0x20, 0x22, 0xFF, 0x5C, 0x71, 0x22]
    let opened : Window := ⟨6, input.drop 6⟩
    let error : SyntaxError := ⟨.invalidLiteral, 7, .value, "one of \\\", \\\\, \\n, \\t"⟩
    Machine.ReadsString .standard input .operand opened ∧
      parseWith .standard input = .error error ∧
      Quoted.FaultAt opened.rest 0 ∧ ¬Literal.TellsFirst opened error := by
  intro input opened error
  let rest (k : Nat) : Window := ⟨k, input.drop k⟩
  have hkey : Machine.UnderWay .standard input 0 (rest 0) ⟨rest 1, .key 0 [0x61], .empty, 1⟩ :=
    .step (.start (by decide)) rfl (by with_unfolding_all rfl)
  have hsubject : Machine.UnderWay .standard input 0 (rest 0)
      ⟨rest 2, .subject (.key ⟨"a", ⟨0, 1⟩⟩), .empty, 1⟩ :=
    .step hkey rfl (by with_unfolding_all rfl)
  have hoperand : Machine.UnderWay .standard input 0 (rest 0)
      ⟨rest 5, .operand (.key ⟨"a", ⟨0, 1⟩⟩) .equals, .empty, 1⟩ :=
    .step hsubject rfl (by with_unfolding_all rfl)
  have hparse : parseWith .standard input = .error error := by
    with_unfolding_all rfl
  have hfault : Quoted.FaultAt opened.rest 0 := by
    refine .inr ⟨[], Quoted.upToClose opened.rest, rfl, rfl, ?_⟩
    intro more c tail heq
    obtain ⟨first, others, hchar⟩ :=
      List.exists_cons_of_ne_nil (String.utf8EncodeChar_ne_nil (c := c))
    have hlt := Utf8.lt_of_mem_encodeChar (c := c) (b := first) (by simp [hchar])
    rw [hchar] at heq
    rw [← (List.cons.inj heq).1] at hlt
    exact absurd hlt (by decide)
  refine ⟨.operand hoperand rfl ⟨rfl, rfl⟩, hparse, hfault, ?_⟩
  intro htells
  have hfirst := htells.first 0 hfault fun j _ => Nat.zero_le j
  cases hfirst.2

end RecordFilter
