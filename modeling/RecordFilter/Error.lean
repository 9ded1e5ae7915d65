import RecordFilter.SyntaxError

/-!
# Errors of the library

Beside syntax errors there are two kinds of trouble with limits: their text cannot be
had or understood, or a limit has a value that no expression could keep to.
-/

namespace RecordFilter

/-- Everything that an operation of the library can fail with. -/
inductive Error where
  /-- An expression is malformed. -/
  | malformedQuery (e : SyntaxError)
  /-- The text of limits cannot be had or understood. -/
  | unreadableLimits (detail : String)
  /-- The limits are understood, but leave no room for any expression. -/
  | invalidLimits (detail : String)
deriving DecidableEq

/-- The message of an error.  A syntax error speaks for itself. -/
def Error.message : Error → String
  | malformedQuery e => e.message
  | unreadableLimits detail => "config error: " ++ detail
  | invalidLimits detail =>
      "invalid config: " ++ detail ++ "\n  hint: limits must be greater than zero"

end RecordFilter
