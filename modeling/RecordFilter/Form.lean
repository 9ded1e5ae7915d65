import RecordFilter.Query.Basic
import RecordFilter.SyntaxError

/-!
# Serialised forms

The form of a value of the library is a tree of records, lists and plain data that
can be handed to any structured format.  It keeps everything, the spans included; only
a decimal that is infinite or NaN has no form of its own.

The kind of a node is told in one of three ways: a query is a record whose only field
names its kind, a subject has its kind beside its own fields, and a value has its kind
beside its content.
-/

namespace RecordFilter

/-- A tree of plain data. -/
inductive Form where
  | null
  | boolean (b : Bool)
  | natural (n : Nat)
  | integer (n : Int64)
  | decimal (x : Binary64)
  | text (s : String)
  | list (items : List Form)
  | record (fields : List (String × Form))

/-- The form of a decimal; infinity and NaN become null. -/
def Binary64.form (x : Binary64) : Form :=
  if x.isFinite then .decimal x else .null

/-- The form of a span. -/
def Span.form (s : Span) : Form :=
  .record [("start", .natural s.start), ("end", .natural s.stop)]

/-- The form of a value. -/
def Value.form : Value → Form
  | .integer n => .record [("type", .text "integer"), ("value", .integer n)]
  | .decimal x => .record [("type", .text "decimal"), ("value", x.form)]
  | .string s => .record [("type", .text "string"), ("value", .text s)]
  | .boolean b => .record [("type", .text "boolean"), ("value", .boolean b)]

/-- The form of a key. -/
def Key.form (k : Key) : Form :=
  .record [("name", .text k.name), ("span", k.span.form)]

/-- The form of a subject. -/
def Subject.form : Subject → Form
  | .key k =>
      .record [("type", .text "key"), ("name", .text k.name), ("span", k.span.form)]
  | .call c =>
      .record [("type", .text "call"), ("key", c.key.form), ("name", .text c.name),
        ("args", .list (c.args.map Value.form)), ("span", c.span.form)]

/-- The name of an operator in a form. -/
def Operator.tag : Operator → String
  | equals => "equals"
  | notEquals => "not_equals"
  | greater => "greater"
  | less => "less"
  | greaterEquals => "greater_equals"
  | lessEquals => "less_equals"

/-- The name of a connector in a form. -/
def Connector.tag : Connector → String
  | and => "and"
  | or => "or"

/-- The form of a comparison. -/
def Comparison.form (c : Comparison) : Form :=
  .record [("subject", c.subject.form), ("operator", .text c.operator.tag),
    ("value", c.value.form)]

/-- The form of a query. -/
def Query.form : Query → Form
  | comparison c => .record [("comparison", c.form)]
  | group inner => .record [("group", inner.form)]
  | logical lhs connector rhs =>
      .record [("logical", .record [("lhs", lhs.form),
        ("connector", .text connector.tag), ("rhs", rhs.form)])]

/-- The name of a violation in a form. -/
def Violation.tag : Violation → String
  | unexpectedByte => "unexpected_byte"
  | truncatedInput => "truncated_input"
  | unmatchedGrouping => "unmatched_grouping"
  | invalidLiteral => "invalid_literal"
  | limitExceeded => "limit_exceeded"

/-- The name of a part in a form; a part is named for how far the reader has come. -/
def Part.tag : Part → String
  | clause => "start"
  | key => "key"
  | operator => "key_parsed"
  | call => "function"
  | group => "grouped"
  | value => "operation"
  | connector => "connector"

/-- The form of a syntax error. -/
def SyntaxError.form (e : SyntaxError) : Form :=
  .record [("kind", .text e.violation.tag), ("offset", .natural e.offset),
    ("state", .text e.part.tag), ("expected", .text e.hint)]

end RecordFilter
