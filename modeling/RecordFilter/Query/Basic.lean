import RecordFilter.Query.Comparison

/-!
# Queries

A query is a tree of comparisons.  A group is a query in parentheses, and a
connector joins two queries.  The connectors bind equally and fold to the left, so a
query that was read is a chain: its right-hand sides are comparisons and groups.
Trees built by hand may nest on either side.

The left side of a chain can be very tall.  The walks over a query therefore keep the
subtrees that are still to visit in a list, and not on the stack.
-/

namespace RecordFilter

/-- How two clauses are joined. -/
inductive Connector where
  | and
  | or
deriving DecidableEq

namespace Connector

/-- How a connector is written. -/
def symbol : Connector → String
  | and => "&&"
  | or => "||"

/-- What is expected where a connector has to stand. -/
def validSymbols : String := "&&, ||, AND, OR or end of input"

end Connector

/-- A filter expression as a tree. -/
inductive Query where
  | comparison (c : Comparison)
  | group (inner : Query)
  | logical (lhs : Query) (connector : Connector) (rhs : Query)

namespace Query

/-- Equality up to spans. -/
def equal : Query → Query → Bool
  | comparison a, comparison b => a == b
  | group a, group b => equal a b
  | logical l c r, logical l' c' r' => c == c' && equal r r' && equal l l'
  | _, _ => false

instance : BEq Query := ⟨equal⟩

/-- The number of nodes of a query. -/
def size : Query → Nat
  | comparison _ => 1
  | group inner => inner.size + 1
  | logical lhs _ rhs => lhs.size + rhs.size + 1

/-- The number of nodes of several queries. -/
def totalSize : List Query → Nat
  | [] => 0
  | q :: queries => q.size + totalSize queries

/-- Collects the comparisons of the pending queries, the first of which is visited
next, behind those found already, which stand in reverse. -/
def collect (found : List Comparison) : List Query → List Comparison
  | [] => found.reverse
  | comparison c :: pending => collect (c :: found) pending
  | group inner :: pending => collect found (inner :: pending)
  | logical lhs _ rhs :: pending => collect found (lhs :: rhs :: pending)
termination_by pending => totalSize pending
decreasing_by all_goals simp only [totalSize, size]; omega

/-- The comparisons of a query in the order of the source. -/
def comparisons (q : Query) : List Comparison := collect [] [q]

/-- The greatest of `deepest` and the depths of the pending queries, each of which
already stands inside as many groups as its number says. -/
def deepen (deepest : Nat) : List (Query × Nat) → Nat
  | [] => deepest
  | (comparison _, depth) :: pending => deepen (max deepest depth) pending
  | (group inner, depth) :: pending => deepen deepest ((inner, depth + 1) :: pending)
  | (logical lhs _ rhs, depth) :: pending =>
      deepen deepest ((rhs, depth) :: (lhs, depth) :: pending)
termination_by pending => totalSize (pending.map Prod.fst)
decreasing_by all_goals simp only [List.map_cons, totalSize, size]; omega

/-- How deep the groups of a query nest. -/
def depth (q : Query) : Nat := deepen 0 [(q, 0)]

end Query

end RecordFilter
