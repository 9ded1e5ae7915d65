import RecordFilter.Query.Basic

/-!
# Walks over a finished tree

The limits speak of clauses and of the nesting of groups.  Both are counted here by
recursion over the tree, and so are its comparisons listed.  The depth and the comparisons,
which are computed with a list of subtrees that are still to visit, are shown to be the
nesting and the leaves.

* `depth_comparison`, `depth_group`, `depth_logical` — the depth of a tree from the depths
  of its parts;
* `height_le_clauseCount` — a tree is no higher than it has clauses;
* `comparisons_eq_leaves` — the comparisons of a tree, from left to right;
* `walks_eq_recursion` — both walks find what recursion finds.
-/

namespace RecordFilter.Query

/-- The comparisons and groups of a query. -/
def clauseCount : Query → Nat
  | comparison _ => 1
  | group inner => inner.clauseCount + 1
  | logical lhs _ rhs => lhs.clauseCount + rhs.clauseCount

theorem clauseCount_pos (q : Query) : 0 < q.clauseCount := by
  induction q with
  | comparison c => exact Nat.one_pos
  | group inner _ => exact Nat.succ_pos _
  | logical lhs connector rhs ihl _ => exact Nat.add_pos_left ihl _

/-- How deep the groups of a query nest, by recursion over the tree. -/
def nesting : Query → Nat
  | comparison _ => 0
  | group inner => inner.nesting + 1
  | logical lhs _ rhs => max lhs.nesting rhs.nesting

/-- The greatest depth that pending queries reach, each from the depth where it stands. -/
def reach : List (Query × Nat) → Nat
  | [] => 0
  | (q, depth) :: pending => max (q.nesting + depth) (reach pending)

/-- The walk over pending queries finds the greatest depth that they reach. -/
theorem deepen_eq (deepest : Nat) (pending : List (Query × Nat)) :
    deepen deepest pending = max deepest (reach pending) := by
  fun_induction deepen deepest pending with
  | case1 deepest => exact (Nat.max_zero deepest).symm
  | case2 deepest c depth pending ih =>
      rw [ih, reach, nesting, Nat.zero_add, Nat.max_assoc]
  | case3 deepest inner depth pending ih =>
      rw [ih, reach, reach, nesting, Nat.add_right_comm, Nat.add_assoc]
  | case4 deepest lhs connector rhs depth pending ih =>
      rw [ih, reach, reach, reach, nesting]
      omega

/-- The walk finds the depth of the deepest group. -/
theorem depth_eq_nesting (q : Query) : q.depth = q.nesting := by
  rw [depth, deepen_eq, reach, reach]
  omega

/-- A comparison stands in no group of its own. -/
theorem depth_comparison (c : Comparison) : (comparison c).depth = 0 :=
  depth_eq_nesting _

/-- A group is one deeper than what is inside. -/
theorem depth_group (inner : Query) : (group inner).depth = inner.depth + 1 := by
  rw [depth_eq_nesting, depth_eq_nesting, nesting]

/-- A link is as deep as the deeper of its sides. -/
theorem depth_logical (lhs rhs : Query) (connector : Connector) :
    (logical lhs connector rhs).depth = max lhs.depth rhs.depth := by
  rw [depth_eq_nesting, depth_eq_nesting, depth_eq_nesting, nesting]

/-- Every layer of groups is a clause. -/
theorem depth_lt_clauseCount (q : Query) : q.depth < q.clauseCount := by
  rw [depth_eq_nesting]
  induction q with
  | comparison c => exact Nat.one_pos
  | group inner ih => exact Nat.succ_lt_succ ih
  | logical lhs connector rhs ihl ihr =>
      rw [nesting, clauseCount]
      omega

/-- The nodes on the longest way down from the root of a query. -/
def height : Query → Nat
  | comparison _ => 1
  | group inner => inner.height + 1
  | logical lhs _ rhs => max lhs.height rhs.height + 1

/-- A joined node leaves a clause aside on the way down, and every other node is a clause. -/
theorem height_le_clauseCount (q : Query) : q.height ≤ q.clauseCount := by
  induction q with
  | comparison c => exact Nat.le_refl 1
  | group inner ih => exact Nat.succ_le_succ ih
  | logical lhs connector rhs ihl ihr =>
      have hlhs := lhs.clauseCount_pos
      have hrhs := rhs.clauseCount_pos
      rw [height, clauseCount]
      omega

/-! ## Comparisons -/

/-- The comparisons of a query from left to right, by recursion over the tree. -/
def leaves : Query → List Comparison
  | comparison c => [c]
  | group inner => inner.leaves
  | logical lhs _ rhs => lhs.leaves ++ rhs.leaves

/-- The walk over pending queries finds their leaves, in the order of the list. -/
theorem collect_eq (found : List Comparison) (pending : List Query) :
    collect found pending = found.reverse ++ pending.flatMap leaves := by
  fun_induction collect found pending with
  | case1 found => exact (List.append_nil _).symm
  | case2 found c pending ih =>
      rw [ih, List.reverse_cons, List.append_assoc, List.flatMap_cons]
      rfl
  | case3 found inner pending ih => rw [ih, List.flatMap_cons, List.flatMap_cons, leaves]
  | case4 found lhs connector rhs pending ih =>
      rw [ih, List.flatMap_cons, List.flatMap_cons, List.flatMap_cons, leaves,
        List.append_assoc]

/-- The walk finds the leaves from left to right. -/
theorem comparisons_eq_leaves (q : Query) : q.comparisons = q.leaves := by
  rw [comparisons, collect_eq, List.flatMap_singleton]
  rfl

/-- **The walks find what recursion finds**: every comparison once, from left to right, and
the greatest number of groups around one of them.  How high the tree is and which side it
nests on makes no difference. -/
theorem walks_eq_recursion (q : Query) : q.comparisons = q.leaves ∧ q.depth = q.nesting := by
  constructor
  · exact comparisons_eq_leaves q
  · exact depth_eq_nesting q

end RecordFilter.Query
