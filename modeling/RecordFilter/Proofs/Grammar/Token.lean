import RecordFilter.Query.Basic
import RecordFilter.Text.Utf8
import RecordFilter.Proofs.Window

/-!
# The tokens of the language

What a name, a literal, an operator and a connector look like on paper, said of their
bytes alone.  Blanks and what may stand next to what are left to the phrases that are made
of tokens.

No token is told by running a reader, but what some bytes mean is said as the readers say it:
`Byte.spells` compares them with a word in any case, `Byte.natOfDigits` adds up digits, and
`Binary64.ofDigits` rounds the digits around a point.  That the last two are what digits write
and the decimal nearest to it is shown apart, by `Byte.natOfDigits_eq` and
`Literal.isReading_of_digits`.
-/

namespace RecordFilter

/-- A name is made of ASCII letters, of which there is at least one. -/
structure IsName (name : String) : Prop where
  nonempty : name ≠ ""
  letters : ∀ c ∈ name.toList, c.isAlpha = true

instance (name : String) : Decidable (IsName name) :=
  decidable_of_iff (name ≠ "" ∧ name.toList.all Char.isAlpha = true)
    ⟨fun h => ⟨h.1, List.all_eq_true.mp h.2⟩,
      fun h => ⟨h.nonempty, List.all_eq_true.mpr h.letters⟩⟩

/-- The digits of a number, at least one. -/
structure IsDigits (digits : List UInt8) : Prop where
  nonempty : digits ≠ []
  all : ∀ b ∈ digits, Byte.isDigit b = true

instance (digits : List UInt8) : Decidable (IsDigits digits) :=
  decidable_of_iff (digits ≠ [] ∧ digits.all Byte.isDigit = true)
    ⟨fun h => ⟨h.1, List.all_eq_true.mp h.2⟩,
      fun h => ⟨h.nonempty, List.all_eq_true.mpr h.all⟩⟩

/-- The sign of a number. -/
def Byte.sign (negative : Bool) : List UInt8 := if negative then [Byte.minus] else []

/-- The bytes of an operator. -/
def Operator.bytes (o : Operator) : List UInt8 := Utf8.encode o.symbol

namespace Connector

/-- The word that stands for a connector, in small letters. -/
def word : Connector → List Char
  | and => ['a', 'n', 'd']
  | or => ['o', 'r']

/-- A connector is written as its symbol or as its word, in any case. -/
def Writes (c : Connector) (token : List UInt8) : Prop :=
  token = Utf8.encode c.symbol ∨ Byte.spells c.word token = true

end Connector

/-- The characters that a backslash escapes, each with the byte that names it. -/
inductive Quoted.Escape : Char → UInt8 → Prop
  | quote : Escape '"' Byte.quote
  | backslash : Escape '\\' Byte.backslash
  | lineFeed : Escape '\n' 'n'.toUInt8
  | tab : Escape '\t' 't'.toUInt8

/-- `body` writes `text` between quotes: every character stands for itself, unless it
is a quote or a backslash, or is written by its escape. -/
inductive Quoted.Writes : List Char → List UInt8 → Prop
  | nil : Writes [] []
  | plain {c : Char} {text : List Char} {body : List UInt8}
      (hquote : c ≠ '"') (hbackslash : c ≠ '\\') (tail : Writes text body) :
      Writes (c :: text) (String.utf8EncodeChar c ++ body)
  | escape {c : Char} {b : UInt8} {text : List Char} {body : List UInt8}
      (hescape : Escape c b) (tail : Writes text body) :
      Writes (c :: text) (Byte.backslash :: b :: body)

/-- The literals of a value.  Digits around a point never write an integer, and digits
alone never write a decimal. -/
inductive Value.Writes : Value → List UInt8 → Prop
  | integer {n : Int64} (negative : Bool) {digits : List UInt8} (hdigits : IsDigits digits)
      (hn : n.toInt = if negative then -(Byte.natOfDigits digits : Int)
        else Byte.natOfDigits digits) :
      Writes (.integer n) (Byte.sign negative ++ digits)
  | decimal (negative : Bool) {whole fraction : List UInt8} (hwhole : IsDigits whole)
      (hfraction : IsDigits fraction)
      (hfinite : (Binary64.ofDigits negative whole fraction).isFinite = true) :
      Writes (.decimal (Binary64.ofDigits negative whole fraction))
        (Byte.sign negative ++ (whole ++ Byte.dot :: fraction))
  | string {text : List Char} {body : List UInt8} (hbody : Quoted.Writes text body) :
      Writes (.string (String.ofList text)) (Byte.quote :: (body ++ [Byte.quote]))
  | true {word : List UInt8} (h : Byte.spells ['t', 'r', 'u', 'e'] word = Bool.true) :
      Writes (.boolean Bool.true) word
  | false {word : List UInt8}
      (h : Byte.spells ['f', 'a', 'l', 's', 'e'] word = Bool.true) :
      Writes (.boolean Bool.false) word

/-! ## First bytes -/

theorem Operator.bytes_ne_nil (o : Operator) : o.bytes ≠ [] := by
  cases o <;> decide

end RecordFilter
