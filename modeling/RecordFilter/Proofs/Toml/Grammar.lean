import RecordFilter.Toml

/-!
# The grammar of documents of whole numbers

What TOML documents that assign whole numbers at their top level look like, said by the forms
of their parts and not by how they are read.  Each form relates a text to what it means: a run
of digits to a number, a key to its name, a line to the assignment it makes, a document to its
assignments in the order of the text.

Spaces and tabs may stand wherever TOML lets them.  Every line may end in a comment, and every
line break in either way.  Whether a document assigns a key twice is no matter of its form.

* `Integer` — the spellings of a whole number, `decimal_toDigits` the one that is written;
* `Key` — bare keys and both kinds of quoted keys;
* `Line`, `Document` — lines, and what a document assigns.
-/

namespace RecordFilter.Toml

/-! ## Numbers -/

/-- The character `c` is the digit for `d` in this base, which is sixteen at most.  Letters
may be of either case. -/
def IsDigit (base : Nat) (c : Char) (d : Nat) : Prop :=
  d < base ∧
    ("0123456789abcdef".toList[d]? = some c ∨ "0123456789ABCDEF".toList[d]? = some c)

/-- At least one digit, in which single underscores may stand between digits, and the number
that the digits write. -/
inductive Digits (base : Nat) : List Char → Nat → Prop
  | one {c : Char} {d : Nat} (hdigit : IsDigit base c d) : Digits base [c] d
  | next {cs : List Char} {n : Nat} {c : Char} {d : Nat} (hfront : Digits base cs n)
      (hdigit : IsDigit base c d) : Digits base (cs ++ [c]) (base * n + d)
  | spaced {cs : List Char} {n : Nat} {c : Char} {d : Nat} (hfront : Digits base cs n)
      (hdigit : IsDigit base c d) : Digits base (cs ++ ['_', c]) (base * n + d)

/-- A decimal number without leading zeros. -/
inductive Decimal : List Char → Nat → Prop
  | zero : Decimal ['0'] 0
  | positive {c : Char} {cs : List Char} {n : Nat} (hdigits : Digits 10 (c :: cs) n)
      (hleading : c ≠ '0') : Decimal (c :: cs) n

/-- The spellings of a whole number that is not negative.  Zero may have a minus sign. -/
inductive Integer : List Char → Nat → Prop
  | decimal {cs : List Char} {n : Nat} (h : Decimal cs n) : Integer cs n
  | plus {cs : List Char} {n : Nat} (h : Decimal cs n) : Integer ('+' :: cs) n
  | minusZero : Integer ['-', '0'] 0
  | hexadecimal {cs : List Char} {n : Nat} (h : Digits 16 cs n) : Integer ('0' :: 'x' :: cs) n
  | octal {cs : List Char} {n : Nat} (h : Digits 8 cs n) : Integer ('0' :: 'o' :: cs) n
  | binary {cs : List Char} {n : Nat} (h : Digits 2 cs n) : Integer ('0' :: 'b' :: cs) n

/-- What may stand behind a backslash between double quotes, and the character that is meant:
a letter or mark with a meaning of its own, or the code of a character in four or in eight
hexadecimal digits. -/
inductive Escape : List Char → Char → Prop
  | named {mark c : Char} (h : (mark, c) ∈ [('b', '\x08'), ('t', '\t'), ('n', '\n'),
      ('f', '\x0c'), ('r', '\r'), ('"', '"'), ('\\', '\\')]) : Escape [mark] c
  | short {cs : List Char} {code : Nat} (hdigits : Digits 16 cs code) (hplain : '_' ∉ cs)
      (hlength : cs.length = 4) (hvalid : code.isValidChar) :
      Escape ('u' :: cs) (Char.ofNat code)
  | long {cs : List Char} {code : Nat} (hdigits : Digits 16 cs code) (hplain : '_' ∉ cs)
      (hlength : cs.length = 8) (hvalid : code.isValidChar) :
      Escape ('U' :: cs) (Char.ofNat code)

/-- What stands between the double quotes of a key, and the name that it spells. -/
inductive QuotedBody : List Char → List Char → Prop
  | empty : QuotedBody [] []
  | plain {c : Char} {text name : List Char} (hplain : isPlain c = true) (hquote : c ≠ '"')
      (hbackslash : c ≠ '\\') (hrest : QuotedBody text name) :
      QuotedBody (c :: text) (c :: name)
  | escape {mark text name : List Char} {c : Char} (hescape : Escape mark c)
      (hrest : QuotedBody text name) : QuotedBody ('\\' :: (mark ++ text)) (c :: name)

/-- A key and its name. -/
inductive Key : List Char → List Char → Prop
  | bare {name : List Char} (hne : name ≠ [])
      (hall : ∀ c ∈ name, isBareKeyChar c = true) : Key name name
  | literal {name : List Char} (hall : ∀ c ∈ name, isPlain c = true ∧ c ≠ '\'') :
      Key ('\'' :: (name ++ ['\''])) name
  | quoted {text name : List Char} (hbody : QuotedBody text name) :
      Key ('"' :: (text ++ ['"'])) name

/-! ## Lines and documents -/

/-- Nothing but blanks. -/
def IsBlanks (cs : List Char) : Prop := ∀ c ∈ cs, isBlank c = true

theorem IsBlanks.nil : IsBlanks [] := by simp [IsBlanks]

theorem IsBlanks.space : IsBlanks [' '] := by simp [IsBlanks, isBlank]

/-- Nothing, or a comment. -/
def IsRemark (cs : List Char) : Prop :=
  cs = [] ∨ ∃ comment, cs = '#' :: comment ∧ ∀ c ∈ comment, isPlain c = true

/-- A line and what it assigns: one that is blank but for a comment assigns nothing. -/
inductive Line : List Char → List Assignment → Prop
  | empty {indent remark : List Char} (hindent : IsBlanks indent) (hremark : IsRemark remark) :
      Line (indent ++ remark) []
  | assignment {indent key name before behind number trail remark : List Char} {value : Nat}
      (hindent : IsBlanks indent) (hkey : Key key name) (hbefore : IsBlanks before)
      (hbehind : IsBlanks behind) (hnumber : Integer number value) (htrail : IsBlanks trail)
      (hremark : IsRemark remark) :
      Line (indent ++ (key ++ (before ++ '=' :: (behind ++ (number ++ (trail ++ remark))))))
        [⟨String.ofList name, value⟩]

/-- A line break. -/
def IsBreak (cs : List Char) : Prop := cs = ['\n'] ∨ cs = ['\r', '\n']

/-- A document, and its assignments in the order of the text.  What follows the last line
break is a line too. -/
inductive Document : List Char → List Assignment → Prop
  | last {line : List Char} {as : List Assignment} (hline : Line line as) : Document line as
  | more {line eol text : List Char} {as others : List Assignment} (hline : Line line as)
      (hbreak : IsBreak eol) (hrest : Document text others) :
      Document (line ++ (eol ++ text)) (as ++ others)

end RecordFilter.Toml
