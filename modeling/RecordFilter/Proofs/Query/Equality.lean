import RecordFilter.Proofs.Query.Shape

/-!
# Equality of queries

Two queries are equal if they have the same shape and the same names, operators and values;
where they stood is not looked at, at any level.  Only decimals are compared as numbers and
not by what they are: NaN differs from itself, and the two zeros are equal although they
are different.  Where neither occurs, equality is sameness of everything but the spans.

* `beq_self_iff` — which queries equal themselves;
* `withoutSpans_eq_of_beq` — equal queries without NaN and without a zero that has a minus
  sign differ in their spans only;
* `beq_of_withoutSpans` — queries without NaN that differ in their spans only are equal.
-/

namespace RecordFilter

/-! ## The decimals of a query -/

/-- The decimals among values: the value itself, if it is one. -/
def Value.decimals : Value → List Binary64
  | decimal x => [x]
  | _ => []

def Subject.decimals : Subject → List Binary64
  | key _ => []
  | call c => c.args.flatMap Value.decimals

def Comparison.decimals (c : Comparison) : List Binary64 :=
  c.subject.decimals ++ c.value.decimals

/-- All decimals of a query, those among the arguments of its calls included. -/
def Query.decimals : Query → List Binary64
  | comparison c => c.decimals
  | group inner => inner.decimals
  | logical lhs _ rhs => lhs.decimals ++ rhs.decimals

/-- The decimal of a well-formed value is finite. -/
theorem Value.WellFormed.isFinite_decimals {v : Value} (h : v.WellFormed) :
    ∀ x ∈ v.decimals, x.isFinite = true := by
  cases v with
  | decimal x =>
      intro y hy
      obtain rfl := List.mem_singleton.mp hy
      exact h
  | _ => exact List.forall_mem_nil _

/-- The decimals of a well-formed comparison are finite. -/
theorem Comparison.WellFormed.isFinite_decimals {c : Comparison} (h : c.WellFormed) :
    ∀ x ∈ c.decimals, x.isFinite = true := by
  refine List.forall_mem_append.mpr ⟨?_, h.value.isFinite_decimals⟩
  have hsubject := h.subject
  cases hc : c.subject with
  | key k => exact List.forall_mem_nil _
  | call f =>
      rw [hc] at hsubject
      intro x hx
      obtain ⟨v, hv, hx⟩ := List.mem_flatMap.mp hx
      exact (hsubject.args v hv).isFinite_decimals x hx

/-- The decimals of a well-formed query are finite. -/
theorem Query.WellFormed.isFinite_decimals {q : Query} (h : q.WellFormed) :
    ∀ x ∈ q.decimals, x.isFinite = true := by
  induction q with
  | comparison c => exact Comparison.WellFormed.isFinite_decimals h
  | group inner ih => exact ih h
  | logical lhs connector rhs ihl ihr =>
      exact List.forall_mem_append.mpr ⟨ihl h.1, ihr h.2⟩

/-! ## What equals itself -/

/-- Only NaN differs from itself. -/
theorem Binary64.beq_self (x : Binary64) : (x == x) = !x.isNaN := by
  show (!x.isNaN && !x.isNaN && (x.bits == x.bits || _)) = _
  rw [beq_self_eq_true, Bool.true_or, Bool.and_true, Bool.and_self]

/-- A value equals itself unless it is no number. -/
theorem Value.beq_self_iff {v : Value} :
    (v == v) = true ↔ ∀ x ∈ v.decimals, x.isNaN = false := by
  cases v with
  | integer n => exact iff_of_true (beq_self_eq_true n) (List.forall_mem_nil _)
  | string s => exact iff_of_true (beq_self_eq_true s) (List.forall_mem_nil _)
  | boolean b => exact iff_of_true (beq_self_eq_true b) (List.forall_mem_nil _)
  | decimal x =>
      show (x == x) = true ↔ _
      rw [Binary64.beq_self, Bool.not_eq_true', decimals, List.forall_mem_singleton]

/-- A list of values equals itself unless one of them is no number. -/
theorem Value.list_beq_self_iff {values : List Value} :
    (values == values) = true ↔ ∀ x ∈ values.flatMap decimals, x.isNaN = false := by
  induction values with
  | nil => exact iff_of_true rfl (List.forall_mem_nil _)
  | cons v values ih =>
      rw [List.cons_beq_cons, Bool.and_eq_true, beq_self_iff, ih, List.flatMap_cons,
        List.forall_mem_append]

/-- A subject equals itself unless one of its arguments is no number. -/
theorem Subject.beq_self_iff {s : Subject} :
    (s == s) = true ↔ ∀ x ∈ s.decimals, x.isNaN = false := by
  cases s with
  | key k => exact iff_of_true (beq_self_eq_true k.name) (List.forall_mem_nil _)
  | call c =>
      show (c.key.name == c.key.name && c.name == c.name && c.args == c.args) = true ↔ _
      rw [beq_self_eq_true, beq_self_eq_true, Bool.true_and, Bool.true_and]
      exact Value.list_beq_self_iff

/-- A comparison equals itself unless one of its values is no number. -/
theorem Comparison.beq_self_iff {c : Comparison} :
    (c == c) = true ↔ ∀ x ∈ c.decimals, x.isNaN = false := by
  show (c.subject == c.subject && c.operator == c.operator && c.value == c.value) = true ↔ _
  rw [beq_self_eq_true c.operator, Bool.and_true, Bool.and_eq_true, Subject.beq_self_iff,
    Value.beq_self_iff, decimals, List.forall_mem_append]

/-- **A query equals itself** exactly if none of its decimals is NaN. -/
theorem Query.beq_self_iff {q : Query} :
    (q == q) = true ↔ ∀ x ∈ q.decimals, x.isNaN = false := by
  induction q with
  | comparison c => exact Comparison.beq_self_iff
  | group inner ih => exact ih
  | logical lhs connector rhs ihl ihr =>
      show (connector == connector && rhs == rhs && lhs == lhs) = true ↔ _
      rw [beq_self_eq_true, Bool.true_and, Bool.and_eq_true, ihl, ihr, decimals,
        List.forall_mem_append, and_comm]

/-! ## Equality does not look at spans -/

/-- Spans do not matter to whether subjects are equal. -/
theorem Subject.beq_withoutSpans (s t : Subject) :
    (s.withoutSpans == t.withoutSpans) = (s == t) := by
  cases s <;> cases t <;> rfl

namespace Query

/-- Spans do not matter to whether queries are equal. -/
theorem beq_withoutSpans (p q : Query) : (p.withoutSpans == q.withoutSpans) = (p == q) := by
  induction p generalizing q with
  | comparison c =>
      cases q with
      | comparison d =>
          show (c.subject.withoutSpans == d.subject.withoutSpans && c.operator == d.operator &&
            c.value == d.value) = (c.subject == d.subject && _ && _)
          rw [Subject.beq_withoutSpans]
      | group _ => rfl
      | logical _ _ _ => rfl
  | group inner ih =>
      cases q with
      | comparison _ => rfl
      | group inner' => exact ih inner'
      | logical _ _ _ => rfl
  | logical lhs connector rhs ihl ihr =>
      cases q with
      | comparison _ => rfl
      | group _ => rfl
      | logical lhs' connector' rhs' =>
          show (connector == connector' && rhs.withoutSpans == rhs'.withoutSpans &&
            lhs.withoutSpans == lhs'.withoutSpans) = (_ && rhs == rhs' && lhs == lhs')
          rw [ihl, ihr]

/-- Queries without NaN that differ in their spans only are equal. -/
theorem beq_of_withoutSpans {p q : Query} (hq : ∀ x ∈ q.decimals, x.isNaN = false)
    (h : p.withoutSpans = q.withoutSpans) : (p == q) = true := by
  rw [← beq_withoutSpans, h, beq_withoutSpans]
  exact beq_self_iff.mpr hq

/-- Well-formed queries that differ in their spans only are equal. -/
theorem beq_of_withoutSpans_eq {p q : Query} (hq : q.WellFormed)
    (h : p.withoutSpans = q.withoutSpans) : (p == q) = true :=
  beq_of_withoutSpans (fun x hx => Binary64.isNaN_of_isFinite (hq.isFinite_decimals x hx)) h

end Query

/-! ## What is equal differs in its spans only -/

namespace Binary64

/-- Whether a number is the zero with a minus sign. -/
def isNegativeZero (x : Binary64) : Bool := x.isNegative && x.magnitude == 0

/-- A zero without a minus sign has no bit set. -/
theorem eq_zero_of_magnitude {x : Binary64} (hx : x.isNegativeZero = false)
    (h : x.magnitude = 0) : x = ofMagnitude false 0 := by
  have hsign : x.isNegative = false := by simpa [isNegativeZero, h] using hx
  rw [← ofMagnitude_magnitude x, hsign, h]

/-- Numbers that are equal are the same, but for the zero with a minus sign. -/
theorem eq_of_beq {x y : Binary64} (hx : x.isNegativeZero = false)
    (hy : y.isNegativeZero = false) (h : (x == y) = true) : x = y := by
  have hequal : equal x y = true := h
  simp only [equal, Bool.and_eq_true, Bool.or_eq_true, beq_iff_eq] at hequal
  rcases hequal.2 with hbits | ⟨hzero, hzero'⟩
  · cases x
    cases y
    exact congrArg mk hbits
  · rw [eq_zero_of_magnitude hx hzero, eq_zero_of_magnitude hy hzero']

end Binary64

/-- Equal values are the same, but for the sign of a zero. -/
theorem Value.eq_of_beq {v w : Value} (hv : ∀ x ∈ v.decimals, x.isNegativeZero = false)
    (hw : ∀ x ∈ w.decimals, x.isNegativeZero = false) (h : (v == w) = true) : v = w := by
  cases v with
  | integer m =>
      cases w with
      | integer n => exact congrArg integer (LawfulBEq.eq_of_beq h)
      | _ => cases h
  | decimal x =>
      cases w with
      | decimal y =>
          have hx := hv x (List.mem_singleton.mpr rfl)
          have hy := hw y (List.mem_singleton.mpr rfl)
          exact congrArg decimal (Binary64.eq_of_beq hx hy h)
      | _ => cases h
  | string s =>
      cases w with
      | string t => exact congrArg string (LawfulBEq.eq_of_beq h)
      | _ => cases h
  | boolean a =>
      cases w with
      | boolean b => exact congrArg boolean (LawfulBEq.eq_of_beq h)
      | _ => cases h

/-- Equal lists of values are the same, but for the signs of zeros. -/
theorem Value.list_eq_of_beq {values others : List Value}
    (hv : ∀ x ∈ values.flatMap decimals, x.isNegativeZero = false)
    (hw : ∀ x ∈ others.flatMap decimals, x.isNegativeZero = false)
    (h : (values == others) = true) : values = others := by
  induction values generalizing others with
  | nil =>
      cases others with
      | nil => rfl
      | cons _ _ => cases h
  | cons v values ih =>
      cases others with
      | nil => cases h
      | cons w others =>
          rw [List.flatMap_cons, List.forall_mem_append] at hv hw
          rw [List.cons_beq_cons, Bool.and_eq_true] at h
          rw [eq_of_beq hv.1 hw.1 h.1, ih hv.2 hw.2 h.2]

/-- Equal subjects are the same up to spans, but for the signs of zeros. -/
theorem Subject.withoutSpans_eq_of_beq {s t : Subject}
    (hs : ∀ x ∈ s.decimals, x.isNegativeZero = false)
    (ht : ∀ x ∈ t.decimals, x.isNegativeZero = false) (h : (s == t) = true) :
    s.withoutSpans = t.withoutSpans := by
  cases s with
  | key k =>
      cases t with
      | call d => cases h
      | key l =>
          have hname : k.name = l.name := LawfulBEq.eq_of_beq (α := String) h
          rw [withoutSpans, withoutSpans, Key.withoutSpan, Key.withoutSpan, hname]
  | call c =>
      cases t with
      | key l => cases h
      | call d =>
          have hparts : (c.key.name == d.key.name && c.name == d.name && c.args == d.args) = true :=
            h
          rw [Bool.and_eq_true, Bool.and_eq_true, beq_iff_eq, beq_iff_eq] at hparts
          obtain ⟨⟨hkey, hname⟩, hargs⟩ := hparts
          rw [withoutSpans, withoutSpans, FunctionCall.withoutSpans, FunctionCall.withoutSpans,
            Key.withoutSpan, Key.withoutSpan, hkey, hname, Value.list_eq_of_beq hs ht hargs]

/-- Equal comparisons are the same up to spans, but for the signs of zeros. -/
theorem Comparison.withoutSpans_eq_of_beq {c d : Comparison}
    (hc : ∀ x ∈ c.decimals, x.isNegativeZero = false)
    (hd : ∀ x ∈ d.decimals, x.isNegativeZero = false) (h : (c == d) = true) :
    c.withoutSpans = d.withoutSpans := by
  obtain ⟨hcs, hcv⟩ := List.forall_mem_append.mp hc
  obtain ⟨hds, hdv⟩ := List.forall_mem_append.mp hd
  have hparts : (c.subject == d.subject && c.operator == d.operator && c.value == d.value) =
      true := h
  rw [Bool.and_eq_true, Bool.and_eq_true] at hparts
  obtain ⟨⟨hsubject, hoperator⟩, hvalue⟩ := hparts
  rw [withoutSpans, withoutSpans, Subject.withoutSpans_eq_of_beq hcs hds hsubject,
    LawfulBEq.eq_of_beq hoperator, Value.eq_of_beq hcv hdv hvalue]

/-- **Equal queries differ in their spans only**, if none has a zero with a minus sign. -/
theorem Query.withoutSpans_eq_of_beq {p q : Query}
    (hp : ∀ x ∈ p.decimals, x.isNegativeZero = false)
    (hq : ∀ x ∈ q.decimals, x.isNegativeZero = false) (h : (p == q) = true) :
    p.withoutSpans = q.withoutSpans := by
  induction p generalizing q with
  | comparison c =>
      cases q with
      | comparison d => exact congrArg comparison (Comparison.withoutSpans_eq_of_beq hp hq h)
      | _ => cases h
  | group inner ih =>
      cases q with
      | group inner' => exact congrArg group (ih hp hq h)
      | _ => cases h
  | logical lhs connector rhs ihl ihr =>
      cases q with
      | logical lhs' connector' rhs' =>
          obtain ⟨hpl, hpr⟩ := List.forall_mem_append.mp hp
          obtain ⟨hql, hqr⟩ := List.forall_mem_append.mp hq
          have hparts : (connector == connector' && rhs == rhs' && lhs == lhs') = true := h
          rw [Bool.and_eq_true, Bool.and_eq_true] at hparts
          obtain ⟨⟨hconnector, hrhs⟩, hlhs⟩ := hparts
          rw [withoutSpans, withoutSpans, ihl hpl hql hlhs, LawfulBEq.eq_of_beq hconnector,
            ihr hpr hqr hrhs]
      | _ => cases h

end RecordFilter
