import RecordFilter.Proofs.Reading.Call
import RecordFilter.Proofs.Reading.String

/-!
# Where readers fail

What an error is about has a place: a byte that is wrong stands where the error says, and an
input that ends too early does so at the end of the window.  `Fits` lists, violation by
violation, what must stand there and which parts can be under way.  It is kept when text is
put in front of the window, so what is shown of a single reader holds of every window that
reaches up to the end of its own.

* `Fits.of_takes` — text in front makes no difference;
* `Literal.fails_of_read`, `FunctionCall.fails_of_read` — all the ways in which a literal and
  a call cannot be read;
* `Operator.fits`, `Connector.fits`, `Literal.fits`, `FunctionCall.fits` — the readers.
-/

namespace RecordFilter

/-- The place of an error in a window, and the part that is told, fit the violation. -/
inductive Fits (w : Window) : SyntaxError → Prop
  | unexpectedByte {b : UInt8} {offset : Nat} {part : Part} {hint : String}
      (h : w.Has b offset) (hpart : part ≠ .key ∧ part ≠ .group) :
      Fits w ⟨.unexpectedByte, offset, part, hint⟩
  | invalidLiteral {b : UInt8} {offset : Nat} {part : Part} {hint : String}
      (h : w.Has b offset) (hpart : part = .value ∨ part = .call) :
      Fits w ⟨.invalidLiteral, offset, part, hint⟩
  | truncatedInput {part : Part} {hint : String} (hpart : part ≠ .group) :
      Fits w ⟨.truncatedInput, w.stop, part, hint⟩
  | unmatchedGrouping {b : UInt8} {offset : Nat} {part : Part} {hint : String}
      (h : w.Has b offset) (hpart : (b = Byte.openParen ∧ part = .group) ∨
        (b = Byte.closeParen ∧ part ≠ .key ∧ part ≠ .group)) :
      Fits w ⟨.unmatchedGrouping, offset, part, hint⟩
  | limitExceeded {b : UInt8} {offset : Nat} {part : Part} {hint : String}
      (h : w.Has b offset) (hpart : (b = Byte.openParen ∧ part = .group) ∨
        ((b = Byte.openParen ∨ Byte.isLetter b = true) ∧ part = .clause)) :
      Fits w ⟨.limitExceeded, offset, part, hint⟩

variable {w u after : Window} {text : List UInt8} {b : UInt8} {offset : Nat} {e : SyntaxError}
  {place : Place}

/-- **Text in front makes no difference** to whether an error fits. -/
theorem Fits.of_takes (h : Fits after e) (htakes : w.Takes text after) : Fits w e := by
  cases h with
  | unexpectedByte h hpart => exact .unexpectedByte (h.of_takes htakes) hpart
  | invalidLiteral h hpart => exact .invalidLiteral (h.of_takes htakes) hpart
  | truncatedInput hpart =>
      rw [htakes.stop_eq]
      exact .truncatedInput hpart
  | unmatchedGrouping h hpart => exact .unmatchedGrouping (h.of_takes htakes) hpart
  | limitExceeded h hpart => exact .limitExceeded (h.of_takes htakes) hpart

/-- Only where something is missing is there no byte. -/
theorem Fits.offset_lt (h : Fits w e) (he : e.violation ≠ .truncatedInput) :
    e.offset < w.stop := by
  cases h with
  | unexpectedByte hb _ => exact hb.lt_stop
  | invalidLiteral hb _ => exact hb.lt_stop
  | truncatedInput _ => exact absurd rfl he
  | unmatchedGrouping hb _ => exact hb.lt_stop
  | limitExceeded hb _ => exact hb.lt_stop

/-! ## Operators and connectors -/

/-- Where an operator cannot be read, the error is at the next byte or at the end. -/
theorem Operator.fits (h : Operator.read w = .error e) : Fits w e := by
  unfold Operator.read at h
  split at h
  · next first second rest hrest =>
    have hhas : w.Has first w.pos := ⟨0, rfl, by rw [hrest]; rfl⟩
    have hfails : w.failure .unexpectedByte .operator Operator.validSymbols =
        (.error e : Reading Operator) → Fits w e := by
      intro h
      cases h
      exact .unexpectedByte hhas (by decide)
    grind
  · cases h
    exact .truncatedInput (by decide)

/-- Where a symbol is not whole, the error is at its first byte or at the end. -/
theorem Connector.fits_readSymbol {c : Connector} (hb : w.peek? = some b)
    (h : Connector.readSymbol c w = .error e) : Fits w e := by
  unfold Connector.readSymbol at h
  split at h
  · split at h
    · cases h
    · cases h
      exact .unexpectedByte (Window.has_of_peek? hb) (by decide)
  · cases h
    exact .truncatedInput (by decide)

/-- Where a word is no connector, the error is at its first letter. -/
theorem Connector.fits_readWord (hb : w.peek? = some b)
    (h : Connector.readWord w = .error e) : Fits w e := by
  unfold Connector.readWord at h
  dsimp only at h
  split at h
  · cases h
  split at h
  · cases h
  · cases h
    exact .unexpectedByte (Window.has_of_peek? hb) (by decide)

/-- Where a connector cannot be read, the error fits the window. -/
theorem Connector.fits (h : Connector.read w = .error e) : Fits w e := by
  unfold Connector.read at h
  split at h
  · cases h
    exact .truncatedInput (by decide)
  · next b hb =>
    split at h
    · exact Connector.fits_readSymbol hb h
    split at h
    · exact Connector.fits_readSymbol hb h
    split at h
    · next hclose =>
      cases h
      exact .unmatchedGrouping (Window.has_of_peek? hb) (.inr ⟨hclose, by decide⟩)
    split at h
    · exact Connector.fits_readWord hb h
    · cases h
      exact .unexpectedByte (Window.has_of_peek? hb) (by decide)

/-! ## Literals -/

/-- A literal is the value of a comparison or part of a call. -/
theorem Place.part_cases (place : Place) : place.part = .value ∨ place.part = .call := by
  cases place with
  | operand => exact .inl rfl
  | argument => exact .inr rfl

/-- A literal is part neither of a key nor of a group. -/
theorem Place.part_ne (place : Place) : place.part ≠ .key ∧ place.part ≠ .group := by
  cases place <;> decide

namespace Literal

/-- The literal ends too early, or is not of the form that it starts as. -/
inductive Breaks (place : Place) (w : Window) : SyntaxError → Prop
  | truncated {hint : String} : Breaks place w ⟨.truncatedInput, w.stop, place.part, hint⟩
  | invalid {b : UInt8} {offset : Nat} {hint : String} (h : w.Has b offset) :
      Breaks place w ⟨.invalidLiteral, offset, place.part, hint⟩

/-- The ways in which a literal cannot be read: it breaks off, or no literal starts with the
first byte, or a closing parenthesis stands in its place or behind it. -/
inductive Fails (place : Place) (w : Window) : SyntaxError → Prop
  | broken {e : SyntaxError} (h : Breaks place w e) : Fails place w e
  | unexpected {b : UInt8} {hint : String} (hb : w.peek? = some b) :
      Fails place w ⟨.unexpectedByte, w.pos, place.part, hint⟩
  | unmatched {literal : List UInt8} {after : Window} {hint : String}
      (hplace : place = .operand) (htakes : w.Takes literal after)
      (hliteral : literal = [] ∨ ∃ value : Value, value.Writes literal)
      (hclose : after.peek? = some Byte.closeParen) :
      Fails place w ⟨.unmatchedGrouping, after.pos, place.part, hint⟩

/-- Text in front makes no difference to where a literal breaks. -/
theorem Breaks.of_takes (h : Breaks place after e) (htakes : w.Takes text after) :
    Breaks place w e := by
  cases h with
  | truncated =>
      rw [htakes.stop_eq]
      exact .truncated
  | invalid h => exact .invalid (h.of_takes htakes)

/-- A number breaks where a digit is missing. -/
theorem breaks_of_missingDigit (h : missingDigit place w = .error e) : Breaks place w e := by
  unfold missingDigit at h
  split at h
  · cases h
    exact .truncated
  · next hend =>
    cases h
    obtain ⟨b, hb⟩ := Window.exists_peek? hend
    exact .invalid (Window.has_of_peek? hb)

/-- A number that is out of range is reported at its first byte. -/
theorem breaks_of_outOfRange (hb : w.peek? = some b)
    (h : outOfRange place w.pos = .error e) : Breaks place w e := by
  cases h
  exact .invalid (Window.has_of_peek? hb)

/-- A decimal breaks where a digit is missing behind its point, or is out of range. -/
theorem breaks_of_fraction {negative : Bool} {whole : List UInt8} (hb : w.peek? = some b)
    (htakes : w.Takes text u) (h : fraction place w.pos negative whole u = .error e) :
    Breaks place w e := by
  unfold fraction at h
  dsimp only at h
  split at h
  · exact (breaks_of_missingDigit h).of_takes (htakes.trans (u.takes_run Byte.isDigit))
  split at h
  · cases h
  · exact breaks_of_outOfRange hb h

/-- The digits `u` of a number that starts as the window `w`. -/
theorem breaks_of_digits {negative : Bool} (hb : w.peek? = some b) (htakes : w.Takes text u)
    (h : Literal.digits place w.pos negative u = .error e) : Breaks place w e := by
  have hbehind := htakes.trans (u.takes_run Byte.isDigit)
  unfold Literal.digits at h
  dsimp only at h
  split at h
  · exact (breaks_of_missingDigit h).of_takes hbehind
  split at h
  · next hdot => exact breaks_of_fraction hb (hbehind.trans (Window.takes_of_peek? hdot)) h
  split at h
  · cases h
  · exact breaks_of_outOfRange hb h

/-- A number breaks in front of a missing digit, or is out of range. -/
theorem breaks_of_number (hb : w.peek? = some b) (h : number place w = .error e) :
    Breaks place w e := by
  unfold number at h
  split at h
  · next hminus => exact breaks_of_digits hb (Window.takes_of_peek? hminus) h
  · exact breaks_of_digits hb w.takes_nil h

/-- A word that is no boolean breaks at its first letter. -/
theorem breaks_of_boolean (hb : w.peek? = some b) (h : boolean place w = .error e) :
    Breaks place w e := by
  unfold boolean at h
  dsimp only at h
  split at h
  · cases h
  split at h
  · cases h
  · cases h
    exact .invalid (Window.has_of_peek? hb)

/-- An unknown escape stands where it is reported, and a missing end at the end. -/
theorem BodyFails.breaks (h : BodyFails place w e) : Breaks place w e := by
  cases h with
  | unknownEscape h =>
      obtain ⟨front, b, rest, hrest, -, -, rfl⟩ := h
      have hhas : w.Has Byte.backslash (w.pos + front.length) :=
        ⟨front.length, rfl, by rw [hrest]; simp⟩
      exact .invalid hhas
  | unclosed => exact .truncated

/-- Bytes that are not UTF-8 are reported in front of the closing quote. -/
theorem breaks_of_string (h : string place w = .error e) : Breaks place w e := by
  cases string_eq_error_iff.mp h with
  | body h => exact h.breaks
  | @illFormed k hclosed hbreaks =>
      obtain ⟨inner, rest, hrest, hsealed⟩ := hclosed
      rw [hrest, Quoted.upToClose_append hsealed, Quoted.upToClose_quote] at hbreaks
      have hk := Utf8.lt_of_decode_eq_error (Utf8.decode_eq_error_iff.mpr hbreaks.stopsAt)
      obtain ⟨b, hb⟩ := Window.exists_has (w := w) (k := k) (by
        rw [hrest]
        simp only [List.length_append, List.length_cons, List.length_nil] at hk ⊢
        omega)
      exact .invalid hb

/-- Where no literal can be read, one breaks off or the next byte starts none. -/
theorem fails_of_unended (h : unended place w = .error e) : Fails place w e := by
  unfold unended at h
  split at h
  · cases h
    exact .broken .truncated
  · next b rest hrest =>
    have hb : w.peek? = some b := by rw [Window.peek?, hrest]; rfl
    split at h
    · have hopen : w.Takes [b] ⟨w.pos + 1, rest⟩ := ⟨hrest, rfl⟩
      exact .broken ((breaks_of_string h).of_takes hopen)
    split at h
    · exact .broken (breaks_of_number hb h)
    split at h
    · exact .broken (breaks_of_boolean hb h)
    split at h
    · next hclose =>
      cases h
      exact .unmatched hclose.2 w.takes_nil (.inl rfl) (hclose.1 ▸ hb)
    · cases h
      exact .unexpected hb

/-- Behind a literal only a closing parenthesis can be without a partner, and among arguments
it ends the literal. -/
theorem ended_cases {value : Value} (h : ended place value w = .error e) :
    Breaks place w e ∨ place = .operand ∧ w.peek? = some Byte.closeParen ∧
      e = ⟨.unmatchedGrouping, w.pos, place.part, delimiterHint⟩ := by
  unfold ended at h
  split at h
  · cases h
  · next b rest hrest =>
    have hb : w.peek? = some b := by rw [Window.peek?, hrest]; rfl
    split at h
    · cases h
    · next hdelimiter =>
      split at h
      · next hclose =>
        cases h
        refine .inr ⟨?_, hclose ▸ hb, rfl⟩
        cases place with
        | operand => rfl
        | argument => exact absurd (by rw [hclose]; decide) hdelimiter
      · cases h
        exact .inl (.invalid (Window.has_of_peek? hb))

/-- **Where the reader of literals fails.** -/
theorem fails_of_read (h : Literal.read place w = .error e) : Fails place w e := by
  unfold Literal.read at h
  split at h
  · next hunended =>
    cases h
    exact fails_of_unended hunended
  · next value after hunended =>
    obtain ⟨literal, htakes, hwrites⟩ := takes_of_unended hunended
    rcases ended_cases h with hbreaks | ⟨hplace, hclose, rfl⟩
    · exact .broken (hbreaks.of_takes htakes)
    · exact .unmatched hplace htakes (.inr ⟨value, hwrites⟩) hclose

/-- What a literal fails with fits the window. -/
theorem Fails.fits (h : Fails place w e) : Fits w e := by
  cases h with
  | broken hbreaks =>
      cases hbreaks with
      | truncated => exact .truncatedInput place.part_ne.2
      | invalid hb => exact .invalidLiteral hb place.part_cases
  | unexpected hb => exact .unexpectedByte (Window.has_of_peek? hb) place.part_ne
  | unmatched _ htakes _ hclose =>
      exact .unmatchedGrouping ((Window.has_of_peek? hclose).of_takes htakes)
        (.inr ⟨rfl, place.part_ne⟩)

theorem fits (h : Literal.read place w = .error e) : Fits w e := (fails_of_read h).fits

end Literal

/-! ## Calls -/

namespace FunctionCall

/-- The ways in which arguments cannot be read: a literal fails, or behind a literal comes
neither a comma nor the closing parenthesis, or so it goes behind a comma. -/
inductive ArgumentsFail : Window → SyntaxError → Prop
  | literal {w : Window} {e : SyntaxError} (h : Literal.Fails .argument w e) :
      ArgumentsFail w e
  | truncated {w : Window} : ArgumentsFail w ⟨.truncatedInput, w.stop, .call, argumentsHint⟩
  | unexpected {w u : Window} {value : Value} {literal : List UInt8} {n : Nat} {b : UInt8}
      (hwrites : value.Writes literal) (htakes : w.Takes (literal ++ Byte.spaces n) u)
      (hb : u.peek? = some b) :
      ArgumentsFail w ⟨.unexpectedByte, u.pos, .call, argumentsHint⟩
  | next {w u : Window} {value : Value} {literal : List UInt8} {n k : Nat} {e : SyntaxError}
      (hwrites : value.Writes literal)
      (htakes : w.Takes (literal ++ Byte.spaces n ++ Byte.comma :: Byte.spaces k) u)
      (h : ArgumentsFail u e) : ArgumentsFail w e

/-- The ways in which a call cannot be read: it ends too early, or the name or the parenthesis
behind it is missing, or the arguments fail. -/
inductive Fails (w : Window) : SyntaxError → Prop
  | truncated {hint : String} : Fails w ⟨.truncatedInput, w.stop, .call, hint⟩
  | noName {b : UInt8} {hint : String} (hb : w.peek? = some b) :
      Fails w ⟨.unexpectedByte, w.pos, .call, hint⟩
  | noOpening {u : Window} {name : String} {b : UInt8} {hint : String} (hname : IsName name)
      (htakes : w.Takes (Utf8.encode name) u) (hb : u.peek? = some b) :
      Fails w ⟨.unexpectedByte, u.pos, .call, hint⟩
  | arguments {u : Window} {name : String} {n : Nat} {e : SyntaxError} (hname : IsName name)
      (htakes : w.Takes (Utf8.encode name ++ Byte.openParen :: Byte.spaces n) u)
      (h : ArgumentsFail u e) : Fails w e

/-- Arguments that cannot be read fail at one of them, or behind one. -/
theorem fails_of_arguments {read : List Value} (h : FunctionCall.arguments read w = .error e) :
    ArgumentsFail w e := by
  fun_induction FunctionCall.arguments read w with
  | case1 read w error hread =>
      cases h
      exact .literal (Literal.fails_of_read hread)
  | case2 read w value behind hvalue hpeek =>
      cases h
      obtain ⟨literal, htakes, -⟩ := Literal.read_eq_ok_iff.mp hvalue
      rw [htakes.stop_eq]
      exact .truncated
  | case3 read w value behind hvalue hpeek ih =>
      obtain ⟨literal, htakes, hwrites, -⟩ := Literal.read_eq_ok_iff.mp hvalue
      obtain ⟨n, hn⟩ := behind.takes_spaces
      obtain ⟨k, hk⟩ := (behind.skipSpaces.skip 1).takes_spaces
      exact .next hwrites ((htakes.trans hn).trans ((Window.takes_of_peek? hpeek).trans hk))
        (ih h)
  | case4 => cases h
  | case5 read w value behind hvalue b hpeek hcomma hclose =>
      cases h
      obtain ⟨literal, htakes, hwrites, -⟩ := Literal.read_eq_ok_iff.mp hvalue
      obtain ⟨n, hn⟩ := behind.takes_spaces
      exact .unexpected hwrites (htakes.trans hn) hpeek

/-- **Where the reader of calls fails.** -/
theorem fails_of_read {key : Key} (h : FunctionCall.read key w = .error e) : Fails w e := by
  have hrun := w.takes_run Byte.isLetter
  unfold FunctionCall.read at h
  dsimp only at h
  split at h
  · split at h
    · cases h
      exact .truncated
    · next hend =>
      cases h
      obtain ⟨b, hb⟩ := Window.exists_peek? hend
      exact .noName hb
  · next hletters =>
    have hne : w.run Byte.isLetter ≠ [] := by simpa [List.isEmpty_iff] using hletters
    obtain ⟨name, hname, hbytes⟩ :=
      exists_name_of_letters hne fun b hb => Window.all_of_mem_run hb
    rw [← hbytes] at h hrun
    rw [readName_encode] at h
    dsimp only at h
    split at h
    · cases h
      rw [hrun.stop_eq]
      exact .truncated
    · next b hpeek =>
      split at h
      · next hopen =>
        subst hopen
        split at h
        · next hargs =>
          cases h
          unfold argumentList at hargs
          split at hargs
          · cases hargs
          · obtain ⟨n, hn⟩ := ((w.skipWhile Byte.isLetter).skip 1).takes_spaces
            exact .arguments hname (hrun.trans ((Window.takes_of_peek? hpeek).trans hn))
              (fails_of_arguments hargs)
        · cases h
      · cases h
        exact .noOpening hname hrun hpeek

/-- What arguments fail with fits the window. -/
theorem ArgumentsFail.fits (h : ArgumentsFail w e) : Fits w e := by
  induction h with
  | literal h => exact h.fits
  | truncated => exact .truncatedInput (by decide)
  | unexpected _ htakes hb =>
      exact .unexpectedByte ((Window.has_of_peek? hb).of_takes htakes) (by decide)
  | next _ htakes _ ih => exact ih.of_takes htakes

theorem fits {key : Key} (h : FunctionCall.read key w = .error e) : Fits w e := by
  cases fails_of_read h with
  | truncated => exact .truncatedInput (by decide)
  | noName hb => exact .unexpectedByte (Window.has_of_peek? hb) (by decide)
  | noOpening _ htakes hb =>
      exact .unexpectedByte ((Window.has_of_peek? hb).of_takes htakes) (by decide)
  | arguments _ htakes h => exact h.fits.of_takes htakes

end FunctionCall

end RecordFilter
