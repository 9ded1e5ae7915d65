import RecordFilter.Form
import RecordFilter.Proofs.Query.Equality

/-!
# Forms tell queries apart

The form of a query keeps everything, so queries with the same form are the same, spans
included.  The kinds of nodes are told apart in three ways: a query by the name of its only
field, a subject and a value by the text in the field `type`.  A decimal and an integer with
the same digits have different types, and so have a decimal and the string of its digits.

Taking the fields named `span` out of every record takes the spans away and nothing else:
names, also the name `span`, are texts and no fields.

* `form_inj` — queries with finite decimals have the same form only if they are the same;
* `form_withoutSpans_inj` — and forms that agree but for the spans belong to queries that
  agree but for the spans;
* `form_decides_identity` — both at once.
-/

namespace RecordFilter

/-! ## Forms without spans -/

mutual

/-- A form without its spans: the fields of that name are taken out of every record. -/
@[simp] def Form.withoutSpans : Form → Form
  | .list items => .list (Form.listWithoutSpans items)
  | .record fields => .record (Form.fieldsWithoutSpans fields)
  | form => form

@[simp] def Form.listWithoutSpans : List Form → List Form
  | [] => []
  | item :: items => item.withoutSpans :: Form.listWithoutSpans items

@[simp] def Form.fieldsWithoutSpans : List (String × Form) → List (String × Form)
  | [] => []
  | (name, form) :: fields =>
      if name = "span" then Form.fieldsWithoutSpans fields
      else (name, form.withoutSpans) :: Form.fieldsWithoutSpans fields

end

/-! ## Names of operators and connectors -/

/-- The names of operators are distinct. -/
theorem Operator.tag_inj {o o' : Operator} : o.tag = o'.tag ↔ o = o' := by
  cases o <;> cases o' <;> simp [tag]

theorem Connector.tag_inj {c d : Connector} : c.tag = d.tag ↔ c = d := by
  cases c <;> cases d <;> simp [tag]

/-! ## Forms with their spans -/

/-- The form of a span tells both of its ends. -/
theorem Span.form_inj {s t : Span} : s.form = t.form ↔ s = t := by
  obtain ⟨start, stop⟩ := s
  obtain ⟨start', stop'⟩ := t
  simp [form]

/-- The form of a key tells its name and its span. -/
theorem Key.form_inj {k l : Key} : k.form = l.form ↔ k = l := by
  obtain ⟨name, span⟩ := k
  obtain ⟨name', span'⟩ := l
  simp [form, Span.form_inj]

/-- Values with the same form are the same.  A decimal that is not finite would have the form
of every other one. -/
theorem Value.form_inj {v w : Value} (hv : ∀ x ∈ v.decimals, x.isFinite = true)
    (hw : ∀ x ∈ w.decimals, x.isFinite = true) : v.form = w.form ↔ v = w := by
  have hdecimal : ∀ x : Binary64, x.isFinite = true → x.form = .decimal x := fun x hx =>
    if_pos hx
  cases v with
  | decimal x =>
      have hx := hdecimal x (hv x (List.mem_singleton.mpr rfl))
      cases w with
      | decimal y =>
          have hy := hdecimal y (hw y (List.mem_singleton.mpr rfl))
          simp [form, hx, hy]
      | _ => simp [form]
  | _ => cases w <;> simp [form]

/-- The forms of finite values tell them, also in a list. -/
theorem Value.map_form_inj {values others : List Value}
    (hv : ∀ x ∈ values.flatMap decimals, x.isFinite = true)
    (hw : ∀ x ∈ others.flatMap decimals, x.isFinite = true) :
    values.map form = others.map form ↔ values = others := by
  induction values generalizing others with
  | nil => cases others <;> simp
  | cons v values ih =>
      cases others with
      | nil => simp
      | cons w others =>
          rw [List.flatMap_cons, List.forall_mem_append] at hv hw
          rw [List.map_cons, List.map_cons, List.cons.injEq, List.cons.injEq,
            form_inj hv.1 hw.1, ih hv.2 hw.2]

/-- The form of a subject tells whether it is a key or a call, and which. -/
theorem Subject.form_inj {s t : Subject} (hs : ∀ x ∈ s.decimals, x.isFinite = true)
    (ht : ∀ x ∈ t.decimals, x.isFinite = true) : s.form = t.form ↔ s = t := by
  cases s with
  | key k =>
      obtain ⟨name, span⟩ := k
      cases t with
      | key l =>
          obtain ⟨name', span'⟩ := l
          simp [form, Span.form_inj]
      | call d => simp [form]
  | call c =>
      obtain ⟨key, name, args, span⟩ := c
      cases t with
      | key l => simp [form]
      | call d =>
          obtain ⟨key', name', args', span'⟩ := d
          have hargs := Value.map_form_inj hs ht
          simp [form, Key.form_inj, Span.form_inj, hargs]

/-- The form of a comparison tells its three parts. -/
theorem Comparison.form_inj {c d : Comparison} (hc : ∀ x ∈ c.decimals, x.isFinite = true)
    (hd : ∀ x ∈ d.decimals, x.isFinite = true) : c.form = d.form ↔ c = d := by
  obtain ⟨hcs, hcv⟩ := List.forall_mem_append.mp hc
  obtain ⟨hds, hdv⟩ := List.forall_mem_append.mp hd
  obtain ⟨subject, operator, value⟩ := c
  obtain ⟨subject', operator', value'⟩ := d
  simp [form, Subject.form_inj hcs hds, Operator.tag_inj, Value.form_inj hcv hdv]

/-- **Queries with the same form are the same.** -/
theorem Query.form_inj {p q : Query} (hp : ∀ x ∈ p.decimals, x.isFinite = true)
    (hq : ∀ x ∈ q.decimals, x.isFinite = true) : p.form = q.form ↔ p = q := by
  induction p generalizing q with
  | comparison c =>
      cases q with
      | comparison d => simp [form, Comparison.form_inj hp hq]
      | _ => simp [form]
  | group inner ih =>
      cases q with
      | group inner' =>
          have hinner : inner.form = inner'.form ↔ inner = inner' := ih hp hq
          simp [form, hinner]
      | _ => simp [form]
  | logical lhs connector rhs ihl ihr =>
      cases q with
      | logical lhs' connector' rhs' =>
          obtain ⟨hpl, hpr⟩ := List.forall_mem_append.mp hp
          obtain ⟨hql, hqr⟩ := List.forall_mem_append.mp hq
          simp [form, ihl hpl hql, ihr hpr hqr, Connector.tag_inj]
      | _ => simp [form]

/-! ## Forms without their spans -/

/-- There are no spans in a decimal. -/
theorem Binary64.withoutSpans_form (x : Binary64) : x.form.withoutSpans = x.form := by
  unfold form
  split <;> rfl

/-- There are no spans in a value. -/
theorem Value.withoutSpans_form (v : Value) : v.form.withoutSpans = v.form := by
  cases v with
  | decimal x => simp [form, x.withoutSpans_form]
  | _ => rfl

/-- There are no spans in the arguments of a function. -/
theorem Value.listWithoutSpans_map_form (values : List Value) :
    Form.listWithoutSpans (values.map form) = values.map form := by
  induction values with
  | nil => rfl
  | cons v values ih =>
      rw [List.map_cons, Form.listWithoutSpans, withoutSpans_form, ih]

/-- The form of a subject without its spans tells the subject but for its spans. -/
theorem Subject.form_withoutSpans_inj {s t : Subject}
    (hs : ∀ x ∈ s.decimals, x.isFinite = true) (ht : ∀ x ∈ t.decimals, x.isFinite = true) :
    s.form.withoutSpans = t.form.withoutSpans ↔ s.withoutSpans = t.withoutSpans := by
  cases s with
  | key k =>
      cases t with
      | key l => simp [form, withoutSpans, Key.withoutSpan]
      | call d => simp [form, withoutSpans]
  | call c =>
      cases t with
      | key l => simp [form, withoutSpans]
      | call d =>
          have hargs := Value.map_form_inj hs ht
          simp [form, withoutSpans, FunctionCall.withoutSpans, Key.form, Key.withoutSpan,
            Value.listWithoutSpans_map_form, hargs]

/-- The form of a comparison without its spans tells the comparison but for its spans. -/
theorem Comparison.form_withoutSpans_inj {c d : Comparison}
    (hc : ∀ x ∈ c.decimals, x.isFinite = true) (hd : ∀ x ∈ d.decimals, x.isFinite = true) :
    c.form.withoutSpans = d.form.withoutSpans ↔ c.withoutSpans = d.withoutSpans := by
  obtain ⟨hcs, hcv⟩ := List.forall_mem_append.mp hc
  obtain ⟨hds, hdv⟩ := List.forall_mem_append.mp hd
  simp [form, withoutSpans, Subject.form_withoutSpans_inj hcs hds, Operator.tag_inj,
    Value.withoutSpans_form, Value.form_inj hcv hdv]

/-- **Queries whose forms agree but for the spans** agree but for the spans. -/
theorem Query.form_withoutSpans_inj {p q : Query} (hp : ∀ x ∈ p.decimals, x.isFinite = true)
    (hq : ∀ x ∈ q.decimals, x.isFinite = true) :
    p.form.withoutSpans = q.form.withoutSpans ↔ p.withoutSpans = q.withoutSpans := by
  induction p generalizing q with
  | comparison c =>
      cases q with
      | comparison d => simp [form, withoutSpans, Comparison.form_withoutSpans_inj hp hq]
      | _ => simp [form, withoutSpans]
  | group inner ih =>
      cases q with
      | group inner' =>
          have hinner : inner.form.withoutSpans = inner'.form.withoutSpans ↔
              inner.withoutSpans = inner'.withoutSpans := ih hp hq
          simp [form, withoutSpans, hinner]
      | _ => simp [form, withoutSpans]
  | logical lhs connector rhs ihl ihr =>
      cases q with
      | logical lhs' connector' rhs' =>
          obtain ⟨hpl, hpr⟩ := List.forall_mem_append.mp hp
          obtain ⟨hql, hqr⟩ := List.forall_mem_append.mp hq
          simp [form, withoutSpans, ihl hpl hql, ihr hpr hqr, Connector.tag_inj]
      | _ => simp [form, withoutSpans]

/-- **The form of a query loses nothing.**  Forms are the same exactly if the queries are, in
every node, name and value and in every span, with decimals bit for bit.  Forms that agree once
their spans are taken out belong to queries that agree but for their spans, and so are equal. -/
theorem Query.form_decides_identity {p q : Query} (hp : ∀ x ∈ p.decimals, x.isFinite = true)
    (hq : ∀ x ∈ q.decimals, x.isFinite = true) :
    (p.form = q.form ↔ p = q) ∧
      (p.form.withoutSpans = q.form.withoutSpans ↔ p.withoutSpans = q.withoutSpans) ∧
      (p.form.withoutSpans = q.form.withoutSpans → (p == q) = true) := by
  refine ⟨form_inj hp hq, form_withoutSpans_inj hp hq, ?_⟩
  intro h
  have hspans : p.withoutSpans = q.withoutSpans := (form_withoutSpans_inj hp hq).mp h
  exact beq_of_withoutSpans (fun x hx => Binary64.isNaN_of_isFinite (hq x hx)) hspans

/-- The query `(span.f(1.0, 1, "1.0") == -0.0)`, all of it at one place. -/
def Query.aboutSpans (s : Span) : Query :=
  .group (.comparison
    ⟨.call ⟨⟨"span", s⟩, "f",
      [.decimal ⟨0x3FF0000000000000⟩, .integer 1, .string "1.0"], s⟩, .equals,
      .decimal ⟨0x8000000000000000⟩⟩)

theorem Query.isFinite_decimals_aboutSpans (s : Span) :
    ∀ x ∈ (aboutSpans s).decimals, x.isFinite = true :=
  List.forall_mem_cons.mpr ⟨by decide, List.forall_mem_singleton.mpr (by decide)⟩

/-- At two places its forms differ, but not once the spans are taken out. -/
theorem Query.form_decides_identity_aboutSpans :
    ((∀ x ∈ (aboutSpans ⟨1, 5⟩).decimals, x.isFinite = true) ∧
      ∀ x ∈ (aboutSpans .nowhere).decimals, x.isFinite = true) ∧
      (aboutSpans ⟨1, 5⟩).form ≠ (aboutSpans .nowhere).form ∧
      (aboutSpans ⟨1, 5⟩ == aboutSpans .nowhere) = true := by
  have hfinite := isFinite_decimals_aboutSpans
  obtain ⟨hidentity, -, hequal⟩ :=
    form_decides_identity (hfinite ⟨1, 5⟩) (hfinite .nowhere)
  refine ⟨⟨hfinite _, hfinite _⟩, ?_, hequal rfl⟩
  intro h
  have hsame : aboutSpans ⟨1, 5⟩ = aboutSpans .nowhere := hidentity.mp h
  simp [aboutSpans, Span.nowhere] at hsame

end RecordFilter
