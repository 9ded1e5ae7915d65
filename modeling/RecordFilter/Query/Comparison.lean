import RecordFilter.Query.Value
import RecordFilter.Span

/-!
# Comparisons

A comparison relates a subject to a value.  The subject is a key, or a key that a
function is applied to first, as in `name.lower() == "bob"`.

Keys and calls remember where they stood in the source.  Equality does not look at
that: `a<1` and `a < 1` are equal.
-/

namespace RecordFilter

/-- A key: the name of a field, and where it stands in the source. -/
structure Key where
  name : String
  span : Span

instance : BEq Key := ⟨fun a b => a.name == b.name⟩

/-- A key with a function applied to it.  The span reaches from the start of the key
to the closing parenthesis. -/
structure FunctionCall where
  key : Key
  name : String
  args : List Value
  span : Span

instance : BEq FunctionCall :=
  ⟨fun a b => a.key == b.key && a.name == b.name && a.args == b.args⟩

/-- The text of a call: the arguments stand in parentheses, after commas. -/
def FunctionCall.text (call : FunctionCall) : String :=
  call.key.name ++ "." ++ call.name ++ "(" ++ ", ".intercalate (call.args.map Value.text) ++ ")"

/-- What a comparison compares: a bare key or a call. -/
inductive Subject where
  | key (k : Key)
  | call (c : FunctionCall)

namespace Subject

/-- Equality up to spans. -/
def equal : Subject → Subject → Bool
  | .key a, .key b => a == b
  | .call a, .call b => a == b
  | _, _ => false

instance : BEq Subject := ⟨equal⟩

/-- The key that is compared, bare or under a function. -/
def baseKey : Subject → Key
  | .key k => k
  | .call c => c.key

/-- Where the subject stands in the source. -/
def span : Subject → Span
  | .key k => k.span
  | .call c => c.span

/-- The text of a subject. -/
def text : Subject → String
  | .key k => k.name
  | .call c => c.text

end Subject

/-- How a subject is compared with a value. -/
inductive Operator where
  | equals
  | notEquals
  | greater
  | less
  | greaterEquals
  | lessEquals
deriving DecidableEq

namespace Operator

/-- How an operator is written. -/
def symbol : Operator → String
  | equals => "=="
  | notEquals => "!="
  | greater => ">"
  | less => "<"
  | greaterEquals => ">="
  | lessEquals => "<="

/-- What is expected where an operator has to stand. -/
def validSymbols : String := "one of ==, !=, <, <=, >, >="

end Operator

/-- A comparison of a subject with a value. -/
structure Comparison where
  subject : Subject
  operator : Operator
  value : Value

namespace Comparison

/-- Equality up to spans. -/
def equal (a b : Comparison) : Bool :=
  a.subject == b.subject && a.operator == b.operator && a.value == b.value

instance : BEq Comparison := ⟨equal⟩

/-- The text of a comparison: its three parts with one blank between them. -/
def text (c : Comparison) : String :=
  c.subject.text ++ " " ++ c.operator.symbol ++ " " ++ c.value.text

end Comparison

end RecordFilter
