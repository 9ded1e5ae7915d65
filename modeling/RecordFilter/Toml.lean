/-!
# TOML documents of whole numbers

The part of TOML that settings made of whole numbers need: assignments of integers to
keys at the top level of a document, one to a line, with blanks, comments and empty
lines.

Settings are read and written with a `Codec`, and no more is known of it than that it
follows TOML.  The codec that is used where no other is given, `Codec.words`, takes no more
than this part: it refuses a document with anything else in it as a whole.  A key is bare, or
quoted in one of two ways: literally between apostrophes, or with escapes between double
quotes.  An integer is decimal with an optional sign, or hexadecimal, octal or binary behind
`0x`, `0o` or `0b`; an underscore may stand between two digits.  Negative numbers are
refused, zero may have a sign.
-/

namespace RecordFilter.Toml

/-- An assignment of a whole number to a key. -/
structure Assignment where
  key : String
  value : Nat
deriving DecidableEq

/-- What documents are read and written with. -/
class Codec where
  /-- The assignments of a document in the order of the text, if it is understood and
  assigns nothing but whole numbers. -/
  read? : String → Option (List Assignment)
  /-- A document of these assignments, if their numbers can be written. -/
  write? : List Assignment → Option String

/-! ## Reading -/

/-- A blank inside a line: a space or a tab. -/
def isBlank (c : Char) : Bool := c == ' ' || c == '\t'

/-- Whether a character may stand in a comment or between quotes: control characters
may not, except the tab. -/
def isPlain (c : Char) : Bool := c == '\t' || (0x20 ≤ c.toNat && c.toNat != 0x7F)

/-- Whether a character may stand in a bare key. -/
def isBareKeyChar (c : Char) : Bool := c.isAlphanum || c == '_' || c == '-'

/-- The value of a digit in any base up to sixteen. -/
def digit? (c : Char) : Option Nat :=
  if '0' ≤ c ∧ c ≤ '9' then some (c.toNat - '0'.toNat)
  else if 'a' ≤ c ∧ c ≤ 'f' then some (c.toNat - 'a'.toNat + 10)
  else if 'A' ≤ c ∧ c ≤ 'F' then some (c.toNat - 'A'.toNat + 10)
  else none

/-- Adds the digit `c` to the number `value` in base `base`. -/
def appendDigit? (base value : Nat) (c : Char) : Option Nat := do
  let d ← digit? c
  if d < base then some (base * value + d) else none

/-- Reads digits behind the number `value`, the last of which was a digit. -/
def digitsFrom? (base value : Nat) : List Char → Option Nat
  | [] => some value
  | '_' :: c :: cs => do digitsFrom? base (← appendDigit? base value c) cs
  | c :: cs => do digitsFrom? base (← appendDigit? base value c) cs

/-- Reads a number of at least one digit, in which single underscores may separate
digits. -/
def digits? (base : Nat) : List Char → Option Nat
  | [] => none
  | c :: cs => do digitsFrom? base (← appendDigit? base 0 c) cs

/-- Reads a decimal number.  It has no leading zeros. -/
def decimal? : List Char → Option Nat
  | ['0'] => some 0
  | '0' :: _ => none
  | cs => digits? 10 cs

/-- Reads a whole number as TOML writes it.  A number behind a minus sign is refused
unless it is zero. -/
def integer? : List Char → Option Nat
  | '0' :: 'x' :: cs => digits? 16 cs
  | '0' :: 'o' :: cs => digits? 8 cs
  | '0' :: 'b' :: cs => digits? 2 cs
  | '+' :: cs => decimal? cs
  | '-' :: cs => do if (← decimal? cs) = 0 then some 0 else none
  | cs => decimal? cs

/-- The character with the code that `count` hexadecimal digits at the front write,
and what follows them. -/
def codePoint? (count : Nat) (cs : List Char) : Option (Char × List Char) := do
  let code ← (cs.take count).foldlM (appendDigit? 16) 0
  if (cs.take count).length = count ∧ code.isValidChar then
    some (Char.ofNat code, cs.drop count)
  else none

/-- The character that a backslash with `cs` behind it stands for, and what follows. -/
def escape? : List Char → Option (Char × List Char)
  | '"' :: cs => some ('"', cs)
  | '\\' :: cs => some ('\\', cs)
  | 'b' :: cs => some ('\x08', cs)
  | 't' :: cs => some ('\t', cs)
  | 'n' :: cs => some ('\n', cs)
  | 'f' :: cs => some ('\x0c', cs)
  | 'r' :: cs => some ('\r', cs)
  | 'e' :: cs => some ('\x1b', cs)
  | 'x' :: cs => codePoint? 2 cs
  | 'u' :: cs => codePoint? 4 cs
  | 'U' :: cs => codePoint? 8 cs
  | _ => none

/-- A code point is read off the front of the characters. -/
theorem length_codePoint?_le {count : Nat} {cs rest : List Char} {c : Char}
    (h : codePoint? count cs = some (c, rest)) : rest.length ≤ cs.length := by
  simp only [codePoint?, Option.bind_eq_bind, Option.bind_eq_some_iff] at h
  obtain ⟨code, _, h⟩ := h
  split at h
  · cases h
    simp
  · cases h

/-- An escape is read off the front of the characters. -/
theorem length_escape?_lt {cs rest : List Char} {c : Char}
    (h : escape? cs = some (c, rest)) : rest.length < cs.length := by
  unfold escape? at h
  split at h <;> grind [→ length_codePoint?_le]

/-- Reads a key between double quotes, of which the first is behind us and the
characters `read` are reversed. -/
def quotedKey? (read : List Char) (cs : List Char) : Option (List Char × List Char) :=
  match cs with
  | [] => none
  | '"' :: cs => some (read.reverse, cs)
  | '\\' :: cs =>
      match _h : escape? cs with
      | none => none
      | some (c, rest) => quotedKey? (c :: read) rest
  | c :: cs => if isPlain c then quotedKey? (c :: read) cs else none
termination_by cs.length
decreasing_by
  · have := length_escape?_lt _h
    simp only [List.length_cons]
    omega
  · simp

/-- Reads the key at the front of a line. -/
def key? : List Char → Option (List Char × List Char)
  | '"' :: cs => quotedKey? [] cs
  | '\'' :: cs =>
      let name := cs.takeWhile fun c => isPlain c && c != '\''
      match cs.drop name.length with
      | '\'' :: rest => some (name, rest)
      | _ => none
  | cs =>
      let name := cs.takeWhile isBareKeyChar
      if name.isEmpty then none else some (name, cs.drop name.length)

/-- Whether the rest of a line holds at most a comment. -/
def endsLine (cs : List Char) : Bool :=
  match cs.dropWhile isBlank with
  | [] => true
  | c :: comment => c == '#' && comment.all isPlain

/-- Reads the assignment of a line. -/
def assignment? (line : List Char) : Option Assignment := do
  let (key, rest) ← key? line
  let '=' :: rest := rest.dropWhile isBlank | none
  let rest := rest.dropWhile isBlank
  let number := rest.takeWhile fun c => !isBlank c && c != '#'
  let value ← integer? number
  if endsLine (rest.drop number.length) then some ⟨String.ofList key, value⟩ else none

/-- The lines of a text.  A line ends with a line feed, which may have a carriage
return before it, or with the text. -/
def lines : List Char → List (List Char)
  | [] => [[]]
  | '\n' :: cs => [] :: lines cs
  | '\r' :: '\n' :: cs => [] :: lines cs
  | c :: cs =>
      match lines cs with
      | [] => [[c]]
      | line :: rest => (c :: line) :: rest

/-- The assignments of the lines that have one. -/
def assignmentsOfLines? : List (List Char) → Option (List Assignment)
  | [] => some []
  | line :: rest =>
      let line := line.dropWhile isBlank
      if endsLine line then assignmentsOfLines? rest
      else do
        let first ← assignment? line
        let others ← assignmentsOfLines? rest
        return first :: others

/-- The text without the byte order mark that it may start with. -/
def withoutMark : List Char → List Char
  | [] => []
  | c :: cs => if c.toNat = 0xFEFF then cs else c :: cs

/-- The assignments of a document in the order of the text.  No key may be assigned
twice. -/
def assignments? (text : String) : Option (List Assignment) := do
  let found ← assignmentsOfLines? (lines (withoutMark text.toList))
  if (found.map Assignment.key).Nodup then some found else none

/-! ## Writing -/

/-- Whether a key can be written bare. -/
def isBareKey (key : String) : Bool := key.toList != [] && key.toList.all isBareKeyChar

/-- The document of these assignments, one to a line, with bare keys. -/
def document (as : List Assignment) : String :=
  String.join (as.map fun a =>
    a.key ++ " = " ++ String.ofList (Nat.toDigits 10 a.value) ++ "\n")

/-- The codec for numbers up to `greatest`.  It writes bare keys only. -/
@[reducible]
def Codec.upTo (greatest : Nat) : Codec where
  read? text := (assignments? text).filter fun as => as.all fun a => a.value ≤ greatest
  write? as :=
    if as.all fun a => isBareKey a.key && a.value ≤ greatest then some (document as) else none

/-- Numbers that take 64 bits are read and written. -/
instance Codec.words : Codec := upTo 18446744073709551615

end RecordFilter.Toml
