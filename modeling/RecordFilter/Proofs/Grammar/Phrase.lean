import RecordFilter.Proofs.Grammar.Token

/-!
# Phrases: the grammar of filter expressions

A phrase is a derivation of the grammar, with the blanks and the spelling that the tree
forgets.  Its bytes are what it looks like and its query is the tree that it stands for,
once it is known at which offset it starts:

    expression  =  SP phrase SP
    phrase      =  clause  |  phrase SP connector SP clause
    clause      =  subject SP operator SP value  |  "(" expression ")"
    subject     =  name  |  name "." SP name "(" [SP value SP {"," SP value SP}] ")"

`SP` is any number of blanks.  Two things are asked of neighbours.  A value that a
connector follows is set off by a blank, and a word is set off by a blank from a clause
that starts with a letter.  Phrases associate to the left, as the tree does.

* `Expression.WellFormed`, `Expression.bytes`, `Expression.query` — what an input is
  compared with.
-/

namespace RecordFilter

/-- An argument of a call, with the blanks on either side. -/
structure ArgumentForm where
  before : Nat
  value : Value
  literal : List UInt8
  behind : Nat

namespace ArgumentForm

def bytes (a : ArgumentForm) : List UInt8 :=
  Byte.spaces a.before ++ a.literal ++ Byte.spaces a.behind

def WellFormed (a : ArgumentForm) : Prop := a.value.Writes a.literal

end ArgumentForm

/-- The function that is applied to a key.  If it has no arguments, its parentheses
hold `blank` blanks. -/
structure CallForm where
  name : String
  blank : Nat
  args : List ArgumentForm

namespace CallForm

/-- The bytes between the parentheses. -/
def argumentBytes (blank : Nat) : List ArgumentForm → List UInt8
  | [] => Byte.spaces blank
  | a :: args => a.bytes ++ args.flatMap fun a => Byte.comma :: a.bytes

def bytes (c : CallForm) : List UInt8 :=
  Utf8.encode c.name ++
    Byte.openParen :: (argumentBytes c.blank c.args ++ [Byte.closeParen])

structure WellFormed (c : CallForm) : Prop where
  name : IsName c.name
  args : ∀ a ∈ c.args, a.WellFormed

/-- The call on `key` of a function that is written at offset `start`. -/
def tree (c : CallForm) (key : Key) (start : Nat) : FunctionCall :=
  ⟨key, c.name, c.args.map ArgumentForm.value, ⟨key.span.start, start + c.bytes.length⟩⟩

end CallForm

/-- A subject: a key, or a key with a function `gap` blanks behind its point. -/
inductive SubjectForm where
  | key (name : String)
  | call (name : String) (gap : Nat) (function : CallForm)

namespace SubjectForm

def bytes : SubjectForm → List UInt8
  | key name => Utf8.encode name
  | call name gap function =>
      Utf8.encode name ++ Byte.dot :: (Byte.spaces gap ++ function.bytes)

def WellFormed : SubjectForm → Prop
  | key name => IsName name
  | call name _ function => IsName name ∧ function.WellFormed

/-- The key that is written as `name` at offset `start`. -/
def keyAt (name : String) (start : Nat) : Key :=
  ⟨name, ⟨start, start + (Utf8.encode name).length⟩⟩

def tree (start : Nat) : SubjectForm → Subject
  | key name => .key (keyAt name start)
  | call name gap function =>
      .call (function.tree (keyAt name start)
        (start + (Utf8.encode name).length + 1 + gap))

end SubjectForm

/-- A comparison, with the blanks around its operator. -/
structure ComparisonForm where
  subject : SubjectForm
  before : Nat
  operator : Operator
  behind : Nat
  value : Value
  literal : List UInt8

namespace ComparisonForm

def bytes (c : ComparisonForm) : List UInt8 :=
  c.subject.bytes ++ Byte.spaces c.before ++ c.operator.bytes ++ Byte.spaces c.behind ++
    c.literal

structure WellFormed (c : ComparisonForm) : Prop where
  subject : c.subject.WellFormed
  value : c.value.Writes c.literal

def tree (start : Nat) (c : ComparisonForm) : Comparison :=
  ⟨c.subject.tree start, c.operator, c.value⟩

end ComparisonForm

/-- A derivation of an expression without the blanks around it. -/
inductive Phrase where
  | comparison (c : ComparisonForm)
  | group (before : Nat) (inner : Phrase) (behind : Nat)
  | joined (lhs : Phrase) (before : Nat) (connector : Connector) (token : List UInt8)
      (behind : Nat) (rhs : Phrase)

namespace Phrase

/-- Whether a phrase is a single clause. -/
def IsClause : Phrase → Prop
  | joined .. => False
  | _ => True

/-- Whether a phrase starts with a parenthesis. -/
def IsGroup : Phrase → Prop
  | group .. => True
  | _ => False

/-- Whether the last byte of a phrase belongs to a value. -/
def EndsInValue : Phrase → Prop
  | comparison _ => True
  | group .. => False
  | joined _ _ _ _ _ rhs => rhs.EndsInValue

def bytes : Phrase → List UInt8
  | comparison c => c.bytes
  | group before inner behind =>
      Byte.openParen ::
        (Byte.spaces before ++ inner.bytes ++ Byte.spaces behind ++ [Byte.closeParen])
  | joined lhs before _ token behind rhs =>
      lhs.bytes ++ Byte.spaces before ++ token ++ Byte.spaces behind ++ rhs.bytes

/-- The conditions of the grammar.  In a joined phrase the right side is a single
clause, a value is set off from the connector, and a word from the letters of a key. -/
def WellFormed : Phrase → Prop
  | comparison c => c.WellFormed
  | group _ inner _ => inner.WellFormed
  | joined lhs before connector token behind rhs =>
      lhs.WellFormed ∧ rhs.WellFormed ∧ rhs.IsClause ∧ connector.Writes token ∧
        (lhs.EndsInValue → 0 < before) ∧
        (Byte.spells connector.word token = true → 0 < behind ∨ rhs.IsGroup)

/-- The tree that a phrase at offset `start` stands for. -/
def query (start : Nat) : Phrase → Query
  | comparison c => .comparison (c.tree start)
  | group before inner _ => .group (inner.query (start + 1 + before))
  | joined lhs before connector token behind rhs =>
      .logical (lhs.query start) connector
        (rhs.query (start + lhs.bytes.length + before + token.length + behind))

end Phrase

/-- A whole input: a phrase with the blanks around it. -/
structure Expression where
  before : Nat
  phrase : Phrase
  behind : Nat

namespace Expression

def bytes (e : Expression) : List UInt8 :=
  Byte.spaces e.before ++ e.phrase.bytes ++ Byte.spaces e.behind

def WellFormed (e : Expression) : Prop := e.phrase.WellFormed

/-- The tree of an expression that starts at offset `start`. -/
def query (start : Nat) (e : Expression) : Query := e.phrase.query (start + e.before)

/-- The expression `(a==1)`: a group and a comparison. -/
def smallGroup : Expression :=
  ⟨0, .group 0 (.comparison
    ⟨.key "a", 0, .equals, 0, .integer 1, Byte.sign false ++ [0x31]⟩) 0, 0⟩

theorem smallGroup_wellFormed : smallGroup.WellFormed :=
  ⟨(by decide : IsName "a"), .integer false (by decide) (by decide)⟩

end Expression

end RecordFilter
