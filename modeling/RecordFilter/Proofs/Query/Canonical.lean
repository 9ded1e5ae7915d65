import RecordFilter.Proofs.Binary64.Text
import RecordFilter.Proofs.Grammar.Phrase
import RecordFilter.Proofs.Query.Shape

/-!
# The text of a query is a phrase

What is written for a value is one of its literals, and what is written for a query that
nests to the left is a phrase with its tree: one blank stands around operators and
connectors, and after the commas of a call.

* `Value.writes_text` — the text of a value is a literal of it;
* `bytes_phrase`, `wellFormed_phrase`, `withoutSpans_query_phrase` — the phrase of a query
  has its text, is well-formed and has its tree.
-/

namespace RecordFilter

/-! ## Values -/

/-- Escaping writes the text. -/
theorem Quoted.writes_escape (text : List Char) :
    Quoted.Writes text (Utf8.bytes (Quoted.escape text)) := by
  induction text with
  | nil => exact .nil
  | cons c text ih =>
      have hsplit : Utf8.bytes (Quoted.escape (c :: text)) =
          Utf8.bytes (Quoted.escapeChar c) ++ Utf8.bytes (Quoted.escape text) := by
        rw [Quoted.escape, List.flatMap_cons, Utf8.bytes_append]
        rfl
      rw [hsplit]
      unfold Quoted.escapeChar
      by_cases hquote : c = '"'
      · rw [if_pos hquote]
        subst hquote
        exact .escape .quote ih
      by_cases hbackslash : c = '\\'
      · rw [if_neg hquote, if_pos hbackslash]
        subst hbackslash
        exact .escape .backslash ih
      rw [if_neg hquote, if_neg hbackslash]
      by_cases hlineFeed : c = '\n'
      · rw [if_pos hlineFeed]
        subst hlineFeed
        exact .escape .lineFeed ih
      by_cases htab : c = '\t'
      · rw [if_neg hlineFeed, if_pos htab]
        subst htab
        exact .escape .tab ih
      · rw [if_neg hlineFeed, if_neg htab]
        have hplain : Utf8.bytes [c] = String.utf8EncodeChar c := by
          rw [Utf8.bytes, List.flatMap_cons, List.flatMap_nil, List.append_nil]
        rw [hplain]
        exact .plain hquote hbackslash ih

/-- The text of an integer is a literal of it. -/
theorem Value.writes_integer (n : Int64) :
    (Value.integer n).Writes (Utf8.encode (integerText n)) := by
  have htext : Utf8.encode (integerText n) =
      Byte.sign (decide (n.toInt < 0)) ++ Utf8.bytes (Nat.toDigits 10 n.toInt.natAbs) := by
    rw [integerText, Utf8.encode_ofList, ← Utf8.bytes, Utf8.bytes_append]
    by_cases hnegative : n.toInt < 0
    · rw [if_pos hnegative, decide_eq_true hnegative]
      rfl
    · rw [if_neg hnegative, decide_eq_false hnegative]
      rfl
  rw [htext]
  refine .integer _ (isDigits_toDigits _) ?_
  rw [natOfDigits_toDigits]
  by_cases hnegative : n.toInt < 0
  · rw [if_pos (decide_eq_true hnegative)]
    omega
  · rw [decide_eq_false hnegative, if_neg (by decide)]
    omega

/-- The text of a finite decimal is a literal of it. -/
theorem Value.writes_decimal {x : Binary64} (h : x.isFinite = true) :
    (Value.decimal x).Writes (Utf8.encode x.text) := by
  obtain ⟨whole, fraction, hwhole, hfraction, htext, hvalue⟩ :=
    Binary64.exists_digits_of_text h
  have hwrites : (Value.decimal (Binary64.ofDigits x.isNegative whole fraction)).Writes
      (Byte.sign x.isNegative ++ (whole ++ Byte.dot :: fraction)) :=
    .decimal x.isNegative hwhole hfraction (by rw [hvalue]; exact h)
  rw [htext]
  rwa [hvalue] at hwrites

/-- The text of a string is a literal of it. -/
theorem Value.writes_string (s : String) :
    (Value.string s).Writes (Utf8.encode (Quoted.quote s)) := by
  have htext : Utf8.encode (Quoted.quote s) =
      Byte.quote :: (Utf8.bytes (Quoted.escape s.toList) ++ [Byte.quote]) := by
    rw [Quoted.quote, Utf8.encode_ofList, ← Utf8.bytes, Utf8.bytes_append]
    rfl
  have hwrites := Value.Writes.string (Quoted.writes_escape s.toList)
  rw [String.ofList_toList] at hwrites
  rwa [htext]

/-- **The text of a value is a literal of it.** -/
theorem Value.writes_text {v : Value} (h : v.WellFormed) :
    v.Writes (Utf8.encode v.text) := by
  cases v with
  | integer n => exact writes_integer n
  | decimal x => exact writes_decimal h
  | string s => exact writes_string s
  | boolean b =>
      cases b with
      | false => exact .false (by decide)
      | true => exact .true (by decide)

/-! ## Calls and subjects -/

/-- A value as an argument behind `before` blanks. -/
def Value.argument (before : Nat) (v : Value) : ArgumentForm :=
  ⟨before, v, Utf8.encode v.text, 0⟩

/-- Values as arguments: a blank stands behind every comma. -/
def Value.arguments : List Value → List ArgumentForm
  | [] => []
  | v :: values => v.argument 0 :: values.map (argument 1)

/-- The arguments of a written call have the values of the call. -/
theorem Value.map_value_arguments (values : List Value) :
    (arguments values).map ArgumentForm.value = values := by
  cases values with
  | nil => rfl
  | cons v values =>
      rw [arguments, List.map_cons, List.map_map]
      exact congrArg (v :: ·) (List.map_id' values)

/-- The arguments of a written call are literals. -/
theorem Value.wellFormed_arguments {values : List Value} (h : ∀ v ∈ values, v.WellFormed) :
    ∀ a ∈ arguments values, a.WellFormed := by
  intro a ha
  cases values with
  | nil => cases ha
  | cons v values =>
      rcases List.mem_cons.mp ha with rfl | ha
      · exact writes_text (h v List.mem_cons_self)
      · obtain ⟨u, hu, rfl⟩ := List.mem_map.mp ha
        exact writes_text (h u (List.mem_cons_of_mem v hu))

/-- A written argument is its text, and the blank in front of all but the first. -/
theorem Value.bytes_argument (v : Value) (before : Nat) :
    (v.argument before).bytes = Byte.spaces before ++ Utf8.encode v.text :=
  List.append_nil _

/-- The texts of values with commas between them. -/
theorem Value.bytes_arguments (values : List Value) :
    CallForm.argumentBytes 0 (arguments values) =
      Utf8.encode (", ".intercalate (values.map text)) := by
  cases values with
  | nil => rfl
  | cons v values =>
      rw [arguments, CallForm.argumentBytes, bytes_argument]
      show Utf8.encode v.text ++ _ = _
      induction values generalizing v with
      | nil =>
          rw [List.map_cons, List.map_nil, List.map_nil, String.intercalate_singleton]
          exact List.append_nil _
      | cons u values ih =>
          have hcomma : Byte.comma :: (u.argument 1).bytes =
              Utf8.encode ", " ++ Utf8.encode u.text := by
            rw [bytes_argument]
            rfl
          rw [List.map_cons, List.flatMap_cons, List.map_cons, List.map_cons,
            String.intercalate_cons_cons, Utf8.encode_append, Utf8.encode_append, hcomma,
            ← List.map_cons, ← ih u]
          simp only [List.append_assoc]

/-- The form in which a call is written. -/
def FunctionCall.written (c : FunctionCall) : CallForm := ⟨c.name, 0, Value.arguments c.args⟩

/-- The form in which a subject is written. -/
def Subject.written : Subject → SubjectForm
  | key k => .key k.name
  | call c => .call c.key.name 0 c.written

/-- The form of a subject has the bytes of its text. -/
theorem Subject.bytes_written (s : Subject) : s.written.bytes = Utf8.encode s.text := by
  cases s with
  | key k => rfl
  | call c =>
      rw [text, FunctionCall.text]
      simp only [Utf8.encode_append]
      rw [← Value.bytes_arguments]
      simp only [List.append_assoc]
      rfl

/-- The form of a subject with names is well-formed. -/
theorem Subject.wellFormed_written {s : Subject} (h : s.WellFormed) : s.written.WellFormed := by
  cases s with
  | key k => exact h
  | call c => exact ⟨h.key, h.name, Value.wellFormed_arguments h.args⟩

/-- The form of a subject stands for the subject, at other spans. -/
theorem Subject.withoutSpans_tree_written (s : Subject) (start : Nat) :
    (s.written.tree start).withoutSpans = s.withoutSpans := by
  cases s with
  | key k => rfl
  | call c =>
      show Subject.call ⟨_, _, (Value.arguments c.args).map ArgumentForm.value, _⟩ = _
      rw [Value.map_value_arguments]
      rfl

/-! ## Queries -/

/-- The form in which a comparison is written. -/
def Comparison.written (c : Comparison) : ComparisonForm :=
  ⟨c.subject.written, 1, c.operator, 1, c.value, Utf8.encode c.value.text⟩

/-- The form of a comparison has the bytes of its text. -/
theorem Comparison.bytes_written (c : Comparison) : c.written.bytes = Utf8.encode c.text := by
  rw [text]
  simp only [Utf8.encode_append]
  rw [← Subject.bytes_written]
  rfl

/-- The form of a well-formed comparison is well-formed. -/
theorem Comparison.wellFormed_written {c : Comparison} (h : c.WellFormed) :
    c.written.WellFormed :=
  ⟨Subject.wellFormed_written h.subject, Value.writes_text h.value⟩

namespace Query

/-- The phrase that a query is written as, if it nests to the left. -/
def phrase : Query → Phrase
  | comparison c => .comparison c.written
  | group inner => .group 0 inner.phrase 0
  | logical lhs connector rhs =>
      .joined lhs.phrase 1 connector (Utf8.encode connector.symbol) 1 rhs.phrase

/-- The bytes of the phrase are the text. -/
theorem bytes_phrase (q : Query) : q.phrase.bytes = Utf8.encode q.text := by
  induction q with
  | comparison c =>
      rw [text_comparison]
      exact c.bytes_written
  | group inner ih =>
      rw [text_group, Utf8.encode_append, Utf8.encode_append, phrase, Phrase.bytes, ih,
        show Byte.spaces 0 = [] from rfl, List.nil_append, List.append_nil]
      rfl
  | logical lhs connector rhs ihl ihr =>
      rw [text_logical]
      simp only [Utf8.encode_append]
      rw [phrase, Phrase.bytes, ihl, ihr]
      simp only [List.append_assoc]
      rfl

/-- The phrase of a query that is nested to the left is well-formed. -/
theorem wellFormed_phrase {q : Query} (h : q.WellFormed) (hleft : q.LeftNested) :
    q.phrase.WellFormed := by
  induction q with
  | comparison c => exact Comparison.wellFormed_written h
  | group inner ih => exact ih h hleft
  | logical lhs connector rhs ihl ihr =>
      refine ⟨ihl h.1 hleft.1, ihr h.2 hleft.2.1, ?_, .inl rfl, fun _ => Nat.one_pos,
        fun _ => .inl Nat.one_pos⟩
      cases rhs with
      | comparison c => trivial
      | group inner => trivial
      | logical l c r => exact absurd trivial hleft.2.2

/-- The phrase of a query has its tree. -/
theorem withoutSpans_query_phrase (q : Query) (start : Nat) :
    (q.phrase.query start).withoutSpans = q.withoutSpans := by
  induction q generalizing start with
  | comparison c =>
      show comparison ⟨(c.subject.written.tree start).withoutSpans, _, _⟩ = _
      rw [Subject.withoutSpans_tree_written]
      rfl
  | group inner ih =>
      rw [phrase, Phrase.query, withoutSpans, ih]
      rfl
  | logical lhs connector rhs ihl ihr =>
      rw [phrase, Phrase.query, withoutSpans, ihl, ihr]
      rfl

end Query

end RecordFilter
