import RecordFilter.Query.Basic

/-!
# The text of a query

A query is written with one blank around every operator and connector and with its
groups in parentheses.  The text of a chain is its first clause followed by the
connectors and clauses behind it; the chain is unrolled first, so the height of its
left side costs no stack.

* `text_comparison`, `text_group`, `text_logical` — the text of a tree is made of the
  texts of its parts.
-/

namespace RecordFilter.Query

/-- Unrolls the left side of a query in front of the clauses `tail` that follow it. -/
def unroll (tail : List (Connector × Query)) : Query → Query × List (Connector × Query)
  | logical lhs connector rhs => unroll ((connector, rhs) :: tail) lhs
  | head => (head, tail)

/-- The first clause of a chain, and the clauses behind it with their connectors. -/
def chain (q : Query) : Query × List (Connector × Query) := unroll [] q

/-- The first clause of a chain is no larger than the chain. -/
theorem size_unroll_fst_le (q : Query) (tail : List (Connector × Query)) :
    (unroll tail q).1.size ≤ q.size := by
  induction q generalizing tail with
  | comparison c => simp [unroll]
  | group inner ih => simp [unroll]
  | logical lhs connector rhs ihl ihr =>
      have h := ihl ((connector, rhs) :: tail)
      simp only [unroll, size]
      omega

/-- A clause behind the first is smaller than the chain, unless it was there before. -/
theorem size_lt_of_mem_unroll {q : Query} {tail : List (Connector × Query)}
    {entry : Connector × Query} (h : entry ∈ (unroll tail q).2) :
    entry ∈ tail ∨ entry.2.size < q.size := by
  induction q generalizing tail with
  | comparison c => exact .inl h
  | group inner ih => exact .inl h
  | logical lhs connector rhs ihl ihr =>
      rcases ihl h with hmem | hlt
      · rcases List.mem_cons.mp hmem with rfl | hmem
        · right
          simp only [size]
          omega
        · exact .inl hmem
      · right
        simp only [size]
        omega

/-- A clause of a chain behind the first is smaller than the chain. -/
theorem size_lt_of_mem_chain {q : Query} {entry : Connector × Query}
    (h : entry ∈ q.chain.2) : entry.2.size < q.size := by
  rcases size_lt_of_mem_unroll h with hmem | hlt
  · simp at hmem
  · exact hlt

/-- The content of a group that starts a chain is smaller than the chain. -/
theorem size_lt_of_chain_fst_eq_group {q inner : Query} (h : q.chain.1 = group inner) :
    inner.size < q.size := by
  have hle := size_unroll_fst_le q []
  have hchain : (unroll [] q).1 = group inner := h
  rw [hchain] at hle
  simp only [size] at hle
  omega

/-- The text of a query.  The first clause of a chain is never a chain itself. -/
def text (q : Query) : String :=
  let head :=
    match _h : q.chain.1 with
    | comparison c => c.text
    | group inner => "(" ++ text inner ++ ")"
    | logical .. => ""
  q.chain.2.attach.foldl
    (fun written entry =>
      written ++ (" " ++ entry.val.1.symbol ++ " " ++ text entry.val.2))
    head
termination_by q.size
decreasing_by
  · exact size_lt_of_chain_fst_eq_group _h
  · exact size_lt_of_mem_chain entry.property

/-- Unrolling a query puts its own chain in front of what follows. -/
theorem unroll_eq (q : Query) (tail : List (Connector × Query)) :
    unroll tail q = (q.chain.1, q.chain.2 ++ tail) := by
  induction q generalizing tail with
  | comparison c => rfl
  | group inner ih => rfl
  | logical lhs connector rhs ihl ihr =>
      have hchain : (logical lhs connector rhs).chain = unroll [(connector, rhs)] lhs := rfl
      rw [hchain, ihl [(connector, rhs)]]
      show unroll ((connector, rhs) :: tail) lhs = _
      rw [ihl]
      simp

/-- The chain of a joined query is the chain of its left side with one clause more. -/
theorem chain_logical (lhs rhs : Query) (connector : Connector) :
    (logical lhs connector rhs).chain = (lhs.chain.1, lhs.chain.2 ++ [(connector, rhs)]) :=
  unroll_eq lhs [(connector, rhs)]

/-- The text of a single comparison. -/
theorem text_comparison (c : Comparison) : (comparison c).text = c.text := by
  rw [text]
  rfl

/-- A group is written in parentheses. -/
theorem text_group (inner : Query) : (group inner).text = "(" ++ inner.text ++ ")" := by
  rw [text]
  rfl

/-- The text of a chain: its first clause, then every connector with its clause. -/
theorem text_eq_foldl (q : Query) :
    q.text = q.chain.2.foldl
      (fun written entry => written ++ (" " ++ entry.1.symbol ++ " " ++ entry.2.text))
      (match q.chain.1 with
        | comparison c => c.text
        | group inner => "(" ++ inner.text ++ ")"
        | logical .. => "") := by
  rw [text, List.foldl_subtype (g := fun written entry =>
    written ++ (" " ++ entry.1.symbol ++ " " ++ entry.2.text)) (by intros; rfl)]
  rw [List.unattach_attach]
  split <;> simp_all

/-- A joined query is written as its left side, its connector and its right side. -/
theorem text_logical (lhs rhs : Query) (connector : Connector) :
    (logical lhs connector rhs).text =
      lhs.text ++ (" " ++ connector.symbol ++ " " ++ rhs.text) := by
  rw [text_eq_foldl, chain_logical, text_eq_foldl lhs]
  simp only [List.foldl_append, List.foldl_cons, List.foldl_nil]

end RecordFilter.Query
