import RecordFilter.Reading.Literal
import RecordFilter.Query.Comparison

/-!
# Reading function calls

A call is a name and a list of literals in parentheses, with commas between them.
Blanks may stand around the arguments, but not between the name and its parenthesis.

* `arguments_eq` — an argument is read, and what stands behind it tells how to go on;
* `length_call_lt` — a call that is read takes at least one byte.
-/

namespace RecordFilter.FunctionCall

/-- What is expected behind an argument. -/
def argumentsHint : String := "`,` or `)` in the argument list"

/-- What is expected behind the name of a function. -/
def openingHint : String := "`(` after the function name"

/-- Reads arguments up to the closing parenthesis and past it, of which there is at
least one more; those of `read`, reversed, are behind us. -/
def arguments (read : List Value) (w : Window) : Reading (List Value) :=
  match _h : Literal.read .argument w with
  | .error e => .error e
  | .ok (value, behind) =>
      match behind.skipSpaces.peek? with
      | none => behind.truncated .call argumentsHint
      | some b =>
          if b = Byte.comma then
            arguments (value :: read) (behind.skipSpaces.skip 1).skipSpaces
          else if b = Byte.closeParen then
            .ok ((value :: read).reverse, behind.skipSpaces.skip 1)
          else behind.skipSpaces.failure .unexpectedByte .call argumentsHint
termination_by w.rest.length
decreasing_by
  have hvalue := Literal.length_read_lt _h
  have hspaces := behind.length_skipSpaces_le
  have hnext := (behind.skipSpaces.skip 1).length_skipSpaces_le
  rw [Window.length_skip] at hnext
  omega

/-- Reads the arguments of a function, if there are any, behind the opening
parenthesis and the blanks that follow it. -/
def argumentList (w : Window) : Reading (List Value) :=
  if w.peek? = some Byte.closeParen then .ok ([], w.skip 1) else arguments [] w

/-- Reads the function that is applied to `key`, behind the point and the blanks that
follow it. -/
def read (key : Key) (w : Window) : Reading FunctionCall :=
  let letters := w.run Byte.isLetter
  let behind := w.skipWhile Byte.isLetter
  if letters.isEmpty then
    if w.atEnd then w.truncated .call "a function name"
    else w.failure .unexpectedByte .call "a function name"
  else
    match readName w.pos letters .call with
    | .error e => .error e
    | .ok name =>
        match behind.peek? with
        | none => behind.truncated .call openingHint
        | some b =>
            if b = Byte.openParen then
              match argumentList (behind.skip 1).skipSpaces with
              | .error e => .error e
              | .ok (args, after) =>
                  .ok (⟨key, name, args, ⟨key.span.start, after.pos⟩⟩, after)
            else behind.failure .unexpectedByte .call openingHint

/-- The reader of arguments as an equation: a literal, and what its delimiter asks for. -/
theorem arguments_eq (read : List Value) (w : Window) :
    arguments read w =
      match Literal.read .argument w with
      | .error e => .error e
      | .ok (value, behind) =>
          match behind.skipSpaces.peek? with
          | none => behind.truncated .call argumentsHint
          | some b =>
              if b = Byte.comma then
                arguments (value :: read) (behind.skipSpaces.skip 1).skipSpaces
              else if b = Byte.closeParen then
                .ok ((value :: read).reverse, behind.skipSpaces.skip 1)
              else behind.skipSpaces.failure .unexpectedByte .call argumentsHint := by
  rw [arguments]
  split
  · next hread => rw [hread]
  · next hread => exact hread ▸ rfl

/-- Arguments are read off the front of the window. -/
theorem length_arguments_lt {read args : List Value} {w after : Window}
    (h : arguments read w = .ok (args, after)) : after.rest.length < w.rest.length := by
  fun_induction arguments read w with
  | case1 => cases h
  | case2 => cases h
  | case3 read w value behind hvalue hpeek ih =>
      have hlt := Literal.length_read_lt hvalue
      have hspaces := behind.length_skipSpaces_le
      have hnext := (behind.skipSpaces.skip 1).length_skipSpaces_le
      have hrec := ih h
      rw [Window.length_skip] at hnext
      omega
  | case4 read w value behind hvalue hpeek hcomma =>
      have hlt := Literal.length_read_lt hvalue
      have hspaces := behind.length_skipSpaces_le
      cases h
      rw [Window.length_skip]
      omega
  | case5 => cases h

/-- An argument list takes at least its closing parenthesis. -/
theorem length_argumentList_lt {args : List Value} {w after : Window}
    (h : argumentList w = .ok (args, after)) : after.rest.length < w.rest.length := by
  unfold argumentList at h
  split at h
  · next hpeek =>
    cases h
    have hpos := Window.length_pos_of_peek? hpeek
    rw [Window.length_skip]
    omega
  · exact length_arguments_lt h

/-- A call that is read takes at least one byte. -/
theorem length_call_lt {key : Key} {call : FunctionCall} {w after : Window}
    (h : read key w = .ok (call, after)) : after.rest.length < w.rest.length := by
  unfold read Window.truncated Window.failure at h
  dsimp only at h
  split at h
  · split at h <;> cases h
  split at h
  · cases h
  split at h
  · cases h
  split at h
  · split at h
    · cases h
    · next hargs =>
      cases h
      have hlt := length_argumentList_lt hargs
      have hspaces := ((w.skipWhile Byte.isLetter).skip 1).length_skipSpaces_le
      have hle := w.length_skipWhile_le Byte.isLetter
      rw [Window.length_skip] at hspaces
      omega
  · cases h

end RecordFilter.FunctionCall
