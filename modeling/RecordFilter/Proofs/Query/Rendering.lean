import RecordFilter.Query.Text
import RecordFilter.Proofs.Query.Shape

/-!
# The text of a query by recursion

The text of a query is written by a loop: the chain of its clauses is unrolled, the first
clause is written if it is a comparison or a group, and then every connector with the clause
behind it.  A tree that is built by hand may have a chain on the right of a connector, and
the loop then meets a clause that is itself a chain.  Still it writes what plain recursion
over the tree writes, for the head of an unrolled chain is never a chain.

What is written is told piece by piece.  The pieces are comparisons, parentheses and
connectors, and nothing else is written; so a clause that was dropped, or written twice,
would be missing or counted twice among the pieces.

* `reassociates_iff` — which trees differ in nothing but how connectors take their sides
  together: those that come out the same when they are nested to the left;
* `text_is_rendering` — the text of a query, by recursion and by pieces.
-/

namespace RecordFilter

/-- What a text is put together from. -/
inductive Piece where
  | comparison (c : Comparison)
  | opening
  | closing
  | connector (c : Connector)

namespace Piece

/-- How a piece is written.  A connector has a blank on either side. -/
def text : Piece → String
  | comparison c => c.text
  | opening => "("
  | closing => ")"
  | connector c => " " ++ c.symbol ++ " "

/-- The comparison that is written, if it is one. -/
def comparison? : Piece → Option Comparison
  | comparison c => some c
  | _ => none

/-- Whether a clause starts with this piece: a comparison does, and so does a group. -/
def startsClause : Piece → Bool
  | comparison _ => true
  | opening => true
  | _ => false

end Piece

namespace Query

/-- The text of a query by recursion over the tree. -/
def rendering : Query → String
  | comparison c => c.text
  | group inner => "(" ++ inner.rendering ++ ")"
  | logical lhs connector rhs =>
      lhs.rendering ++ " " ++ connector.symbol ++ " " ++ rhs.rendering

/-- The pieces of a query from left to right. -/
def pieces : Query → List Piece
  | comparison c => [.comparison c]
  | group inner => .opening :: (inner.pieces ++ [.closing])
  | logical lhs connector rhs => lhs.pieces ++ .connector connector :: rhs.pieces

/-- Two queries with the same comparisons, groups and connectors in the same order, whose
connectors take their sides together in another way.  No parenthesis is crossed. -/
inductive Reassociates : Query → Query → Prop
  | rotate (p q r : Query) (c d : Connector) :
      Reassociates (logical (logical p c q) d r) (logical p c (logical q d r))
  | refl (q : Query) : Reassociates q q
  | symm {p q : Query} (h : Reassociates p q) : Reassociates q p
  | trans {p q r : Query} (hp : Reassociates p q) (hq : Reassociates q r) : Reassociates p r
  | group {p q : Query} (h : Reassociates p q) : Reassociates (group p) (group q)
  | logical {p p' q q' : Query} (c : Connector) (hp : Reassociates p p')
      (hq : Reassociates q q') : Reassociates (logical p c q) (logical p' c q')

/-! ## The loop and the recursion -/

/-- The head of an unrolled chain is a comparison or a group, so the loop always has a first
clause to write. -/
theorem not_isLogical_unroll_fst (q : Query) (tail : List (Connector × Query)) :
    ¬(unroll tail q).1.IsLogical := by
  induction q generalizing tail with
  | comparison c => exact id
  | group inner _ => exact id
  | logical lhs connector rhs ihl _ => exact ihl ((connector, rhs) :: tail)

/-- The loop writes what the recursion writes. -/
theorem text_eq_rendering (q : Query) : q.text = q.rendering := by
  induction q with
  | comparison c => exact text_comparison c
  | group inner ih => rw [text_group, ih, rendering]
  | logical lhs connector rhs ihl ihr =>
      rw [text_logical, ihl, ihr, rendering]
      simp only [String.append_assoc]

/-- The text of a query is that of its pieces. -/
theorem text_eq_join_pieces (q : Query) : q.text = String.join (q.pieces.map Piece.text) := by
  induction q with
  | comparison c =>
      rw [text_comparison, pieces, List.map_singleton, String.join_cons, String.join_nil,
        String.append_empty, Piece.text]
  | group inner ih =>
      rw [text_group, ih]
      simp [pieces, Piece.text, String.join_append, String.append_assoc]
  | logical lhs connector rhs ihl ihr =>
      rw [text_logical, ihl, ihr]
      simp [pieces, Piece.text, String.join_append, String.append_assoc]

/-- The loop over the chain writes the pieces of the first clause, and then every connector
with the pieces of the clause behind it. -/
theorem pieces_eq_flatMap_chain (q : Query) :
    q.pieces = q.chain.1.pieces ++
      q.chain.2.flatMap fun link => .connector link.1 :: link.2.pieces := by
  induction q with
  | comparison c => rfl
  | group inner _ => simp [chain, unroll]
  | logical lhs connector rhs ihl _ =>
      rw [pieces, chain_logical, ihl, List.flatMap_append, List.append_assoc]
      simp

/-- The comparisons among the pieces are those of the tree, in their order. -/
theorem filterMap_pieces (q : Query) : q.pieces.filterMap Piece.comparison? = q.leaves := by
  induction q with
  | comparison c => rfl
  | group inner ih =>
      rw [pieces, List.filterMap_cons_none rfl, List.filterMap_append, ih, leaves]
      exact List.append_nil _
  | logical lhs connector rhs ihl ihr =>
      rw [pieces, List.filterMap_append, List.filterMap_cons_none rfl, ihl, ihr, leaves]

/-- Every comparison and every group starts at one piece. -/
theorem countP_pieces (q : Query) : q.pieces.countP Piece.startsClause = q.clauseCount := by
  induction q with
  | comparison c => rfl
  | group inner ih =>
      rw [pieces, List.countP_cons_of_pos rfl, List.countP_append, ih, clauseCount]
      rfl
  | logical lhs connector rhs ihl ihr =>
      have hconnector : ¬Piece.startsClause (.connector connector) = true := Bool.false_ne_true
      rw [pieces, List.countP_append, List.countP_cons_of_neg hconnector, ihl, ihr, clauseCount]

/-! ## Taking sides together -/

/-- Putting chains in front of a chain is associative. -/
theorem joinLeft_assoc (p q r : Query) (c d : Connector) :
    joinLeft (joinLeft p c q) d r = joinLeft p c (joinLeft q d r) := by
  induction r with
  | comparison _ => rfl
  | group inner _ => rfl
  | logical lhs connector rhs ihl _ => rw [joinLeft, ihl, joinLeft, joinLeft]

/-- A chain on the right of a connector is taken apart clause by clause. -/
theorem reassociates_joinLeft (p q : Query) (c : Connector) :
    Reassociates (logical p c q) (joinLeft p c q) := by
  induction q with
  | comparison _ => exact .refl _
  | group inner _ => exact .refl _
  | logical lhs connector rhs ihl _ =>
      have hrotate : Reassociates (logical p c (logical lhs connector rhs))
          (logical (logical p c lhs) connector rhs) := (Reassociates.rotate ..).symm
      exact hrotate.trans (.logical connector ihl (.refl rhs))

/-- Nesting to the left only regroups. -/
theorem reassociates_nestLeft (q : Query) : Reassociates q q.nestLeft := by
  induction q with
  | comparison c => exact .refl _
  | group inner ih => exact .group ih
  | logical lhs connector rhs ihl ihr =>
      exact (Reassociates.logical connector ihl ihr).trans (reassociates_joinLeft ..)

/-- **Trees take the same sides together in different ways** exactly if they are the same
tree once they are nested to the left. -/
theorem reassociates_iff {p q : Query} : Reassociates p q ↔ p.nestLeft = q.nestLeft := by
  constructor
  · intro h
    induction h with
    | rotate p q r c d => exact joinLeft_assoc _ _ _ c d
    | refl q => rfl
    | symm _ ih => exact ih.symm
    | trans _ _ ihp ihq => exact ihp.trans ihq
    | group _ ih => rw [nestLeft, nestLeft, ih]
    | logical c _ _ ihp ihq => rw [nestLeft, nestLeft, ihp, ihq]
  · intro h
    have hq : Reassociates p q.nestLeft := h ▸ reassociates_nestLeft p
    exact hq.trans (reassociates_nestLeft q).symm

/-- **The text of a query is what plain recursion writes**, whatever its shape and its names,
so it does not tell how connectors take their sides together.  The loop always has a first
clause to write, and passes over the pieces of the tree from left to right; these are all
that is written, every comparison is among them once and in its place, and so is the start
of every clause. -/
theorem text_is_rendering (q : Query) :
    q.text = q.rendering ∧
      (∀ p, Reassociates q p → p.text = q.text) ∧
      (¬q.chain.1.IsLogical ∧ q.pieces = q.chain.1.pieces ++
        q.chain.2.flatMap fun link => .connector link.1 :: link.2.pieces) ∧
      q.text = String.join (q.pieces.map Piece.text) ∧
      q.pieces.filterMap Piece.comparison? = q.comparisons ∧
      q.pieces.countP Piece.startsClause = q.clauseCount := by
  refine ⟨text_eq_rendering q, ?_, ⟨not_isLogical_unroll_fst q [], pieces_eq_flatMap_chain q⟩,
    text_eq_join_pieces q, ?_, countP_pieces q⟩
  · intro p h
    rw [← text_nestLeft p, ← reassociates_iff.mp h, text_nestLeft]
  · rw [filterMap_pieces, comparisons_eq_leaves]

/-- A query with chains on the right of its connectors, inside its group too, and with names
that could not be read. -/
def handBuilt : Query :=
  let clause (name : String) (o : Operator) (b : Bool) : Query :=
    .comparison ⟨.key ⟨name, .nowhere⟩, o, .boolean b⟩
  .logical (clause "a b" .equals true) .and
    (.logical
      (.group (.logical (clause "&&" .notEquals false) .or
        (.logical (clause "\"" .equals true) .and (clause ")" .equals false))))
      .or (clause "a b" .equals true))

/-- Nested to the left it has the same text, with all its five comparisons. -/
theorem text_is_rendering_handBuilt :
    Reassociates handBuilt handBuilt.nestLeft ∧
      handBuilt.nestLeft.text = handBuilt.text ∧
      handBuilt.text =
        "a b == true && (&& != false || \" == true && ) == false) || a b == true" ∧
      handBuilt.pieces.countP Piece.startsClause = 6 := by
  have h : Reassociates handBuilt handBuilt.nestLeft := reassociates_nestLeft handBuilt
  obtain ⟨hrendering, htext, -, -, -, hcount⟩ := text_is_rendering handBuilt
  refine ⟨h, htext _ h, ?_, ?_⟩
  · rw [hrendering]
    decide
  · rw [hcount]
    decide

end Query

end RecordFilter
