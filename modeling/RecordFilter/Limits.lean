import RecordFilter.Error

/-!
# Limits

Limits bound the work that reading one expression can take: the length of the input,
the nesting of groups, and the number of clauses.  Connectors fold to the left, so the
number of clauses also bounds the height of the tree.
-/

namespace RecordFilter

/-- What is limited. -/
inductive Limit where
  /-- The length of an input, in bytes. -/
  | inputLength
  /-- The nesting of groups. -/
  | depth
  /-- The clauses of a whole expression; a group is a clause, and so is each clause
  inside. -/
  | clauses
deriving DecidableEq

/-- All that is limited, in the order in which it is written and checked. -/
def Limit.all : List Limit := [inputLength, depth, clauses]

/-- The name under which a limit is written. -/
def Limit.key : Limit → String
  | inputLength => "max_input_len"
  | depth => "max_depth"
  | clauses => "max_clauses"

/-- The limits of one reading. -/
structure Limits where
  inputLength : UInt64
  depth : UInt64
  clauses : UInt64
deriving DecidableEq

namespace Limits

/-- The limits that are used where none are given. -/
def standard : Limits := ⟨65536, 32, 256⟩

/-- The value of a limit. -/
def get (l : Limits) : Limit → UInt64
  | .inputLength => l.inputLength
  | .depth => l.depth
  | .clauses => l.clauses

/-- The first limit that is zero. -/
def firstZero? (l : Limits) : Option Limit := Limit.all.find? fun limit => l.get limit == 0

/-- Refuses limits that leave no room for any expression. -/
def validate (l : Limits) : Except Error Unit :=
  match l.firstZero? with
  | some limit => .error (.invalidLimits (limit.key ++ " is 0"))
  | none => .ok ()

/-- Passes the limits on if they are valid. -/
def validated (l : Limits) : Except Error Limits := l.validate.map fun _ => l

/-- The limits with this length and depth and the standard number of clauses. -/
def new (inputLength depth : UInt64) : Except Error Limits :=
  validated ⟨inputLength, depth, standard.clauses⟩

/-- The limits with another number of clauses. -/
def withClauses (l : Limits) (clauses : UInt64) : Except Error Limits :=
  validated { l with clauses := clauses }

end Limits

end RecordFilter
