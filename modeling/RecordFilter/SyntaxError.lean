/-!
# Syntax errors

Reading an expression is all or nothing.  What goes wrong is told by four things: the
class of the violation, the offset at which it was found, the part of the expression
that was being read, and a hint at what would have been valid there.
-/

namespace RecordFilter

/-- The classes of violations. -/
inductive Violation where
  /-- A byte cannot stand where it stands. -/
  | unexpectedByte
  /-- The bytes end while something is incomplete. -/
  | truncatedInput
  /-- A parenthesis has no partner. -/
  | unmatchedGrouping
  /-- A value is not of the form that it starts as. -/
  | invalidLiteral
  /-- A limit is exceeded. -/
  | limitExceeded
deriving DecidableEq

/-- How a violation is described. -/
def Violation.text : Violation → String
  | unexpectedByte => "unexpected byte"
  | truncatedInput => "truncated input"
  | unmatchedGrouping => "unmatched parenthesis"
  | invalidLiteral => "invalid literal"
  | limitExceeded => "limit exceeded"

/-- The parts of an expression that can be under way. -/
inductive Part where
  /-- The start of a clause. -/
  | clause
  /-- The letters of a key. -/
  | key
  /-- The operator behind a subject. -/
  | operator
  /-- A function with its arguments. -/
  | call
  /-- A group in parentheses. -/
  | group
  /-- The value behind an operator. -/
  | value
  /-- The place between two clauses. -/
  | connector
deriving DecidableEq

/-- How a part is described. -/
def Part.text : Part → String
  | clause => "clause"
  | key => "key"
  | operator => "operator"
  | call => "function call"
  | group => "group"
  | value => "value"
  | connector => "connector"

/-- Why an expression cannot be read.  The offset counts the bytes of the whole
input. -/
structure SyntaxError where
  violation : Violation
  offset : Nat
  part : Part
  hint : String
deriving DecidableEq

/-- The message of a syntax error, with the hint on a line of its own. -/
def SyntaxError.message (e : SyntaxError) : String :=
  e.violation.text ++ " at offset " ++ String.ofList (Nat.toDigits 10 e.offset) ++
    " while parsing " ++ e.part.text ++ "\n  hint: " ++ e.hint

end RecordFilter
