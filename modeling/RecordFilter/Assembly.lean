import RecordFilter.Query.Basic

/-!
# Assemblies: queries from clauses and connectors

A query can be put together from a stream of clauses and connectors.  The tree grows
as they arrive: a clause that follows a connector becomes the right side of a new
node, whose left side is everything before.  AND and OR bind equally; a group is one
clause, and so binds tighter.

    a == 1 && b == 2 || c == 3    is    (a == 1 && b == 2) || c == 3

Only streams of the shape `clause (connector clause)*` give a query.  An assembly
that has left this shape never gives one again.
-/

namespace RecordFilter

/-- What has been put together so far: the tree, the connector that waits for its
right side, and whether the stream has left the shape of a query. -/
structure Assembly where
  root : Option Query
  pending : Option Connector
  malformed : Bool

namespace Assembly

/-- The assembly of the empty stream. -/
def empty : Assembly := ⟨none, none, false⟩

/-- Adds a comparison or a group.  A clause that follows another clause without a
connector, or a connector at the very start, is dropped and spoils the assembly. -/
def pushClause (a : Assembly) (clause : Query) : Assembly :=
  match a.root, a.pending with
  | none, none => { a with root := some clause }
  | some lhs, some connector =>
      { a with root := some (.logical lhs connector clause), pending := none }
  | root, _ => { root := root, pending := none, malformed := true }

/-- Adds a connector between the clause before it and the next one. -/
def pushConnector (a : Assembly) (connector : Connector) : Assembly :=
  { a with
    pending := some connector
    malformed := a.malformed || a.root.isNone || a.pending.isSome }

/-- Whether a connector waits for the clause on its right. -/
def awaitsClause (a : Assembly) : Bool := a.pending.isSome

/-- The query, if the stream has the shape of one. -/
def result? (a : Assembly) : Option Query :=
  if a.malformed || a.pending.isSome then none else a.root

end Assembly

end RecordFilter
