import RecordFilter.Binary64.Shortest
import RecordFilter.Text.Quoted

/-!
# Values

A value is what a comparison compares with and what a function takes as argument: a
64-bit integer, a decimal, a string or a truth value.
-/

namespace RecordFilter

/-- A literal value. -/
inductive Value where
  | integer (n : Int64)
  | decimal (x : Binary64)
  | string (s : String)
  | boolean (b : Bool)

namespace Value

/-- Values are equal if they are of one kind and equal as that kind; decimals are
compared as numbers. -/
def equal : Value → Value → Bool
  | integer m, integer n => m == n
  | decimal x, decimal y => x == y
  | string s, string t => s == t
  | boolean a, boolean b => a == b
  | _, _ => false

instance : BEq Value := ⟨equal⟩

/-- The text of an integer: its digits in base ten, after a minus sign if it is
negative. -/
def integerText (n : Int64) : String :=
  String.ofList ((if n.toInt < 0 then ['-'] else []) ++ Nat.toDigits 10 n.toInt.natAbs)

/-- The text of a value, from which it can be read back.  A decimal always has a
point, so it cannot be taken for an integer. -/
def text : Value → String
  | integer n => integerText n
  | decimal x => x.text
  | string s => Quoted.quote s
  | boolean b => if b then "true" else "false"

end Value

end RecordFilter
