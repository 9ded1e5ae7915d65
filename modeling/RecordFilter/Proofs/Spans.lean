import RecordFilter.Proofs.Acceptance

/-!
# Spans point at the source

What a query remembers of the source is right, however deep in groups it stands.  The span
of a key holds the letters of its name and ends where they end; the span of a call goes on
from there to its closing parenthesis.  From left to right the subjects of a query stand one
behind the other.

* `SubjectForm.stands`, `Phrase.stands` — the subjects of a phrase, in any input that it is
  part of;
* `Phrase.pairwise_leaves` — their order;
* `stands_of_parseWith` — the subjects of every query that is read.
-/

namespace RecordFilter

/-! ## Standing at a span -/

/-- The bytes that a span points at. -/
def Span.slice (s : Span) (input : List UInt8) : List UInt8 :=
  (input.drop s.start).take s.length

/-- The key is spelled out at its span, and no letter stands on either side. -/
structure Key.Stands (k : Key) (input : List UInt8) : Prop where
  name : IsName k.name
  inside : k.span.start ≤ k.span.stop ∧ k.span.stop ≤ input.length
  slice : k.span.slice input = Utf8.encode k.name
  before : ∀ i b, k.span.start = i + 1 → input[i]? = some b → Byte.isLetter b = false
  behind : ∀ b, input[k.span.stop]? = some b → Byte.isLetter b = false

/-- The call starts with its key.  Behind the key its span holds a point, blanks, the name
of the function, and parentheses up to the end. -/
structure FunctionCall.Stands (f : FunctionCall) (input : List UInt8) : Prop where
  key : f.key.Stands input
  name : IsName f.name
  start : f.span.start = f.key.span.start
  inside : f.key.span.stop ≤ f.span.stop ∧ f.span.stop ≤ input.length
  slice : ∃ (gap : Nat) (arguments : List UInt8),
    (⟨f.key.span.stop, f.span.stop⟩ : Span).slice input =
      Byte.dot :: (Byte.spaces gap ++ (Utf8.encode f.name ++
        Byte.openParen :: (arguments ++ [Byte.closeParen])))

def Subject.Stands (s : Subject) (input : List UInt8) : Prop :=
  match s with
  | .key k => k.Stands input
  | .call f => f.Stands input

/-- Bytes with others in front and behind are what their span points at. -/
theorem Span.slice_append (front s back : List UInt8) :
    (⟨front.length, front.length + s.length⟩ : Span).slice (front ++ (s ++ back)) = s := by
  rw [slice, length, Nat.add_sub_cancel_left, List.drop_left, List.take_left]

/-! ## Subjects -/

variable {front back : List UInt8}

/-- A name that no letters touch is a key that stands where it is written. -/
theorem SubjectForm.stands_key {name : String} (hname : IsName name)
    (hfront : ∀ b, front.getLast? = some b → Byte.isLetter b = false)
    (hback : ∀ b, back.head? = some b → Byte.isLetter b = false) :
    (keyAt name front.length).Stands (front ++ (Utf8.encode name ++ back)) where
  name := hname
  inside := by
    refine ⟨Nat.le_add_right _ _, ?_⟩
    simp only [keyAt, List.length_append]
    omega
  slice := Span.slice_append front _ back
  before i b hi hb := by
    have hi : front.length = i + 1 := hi
    apply hfront
    rw [List.getLast?_eq_getElem?, hi, Nat.add_sub_cancel,
      ← List.getElem?_append_left (by omega), hb]
  behind b hb := by
    have hb : (front ++ (Utf8.encode name ++ back))[front.length + (Utf8.encode name).length]? =
      some b := hb
    rw [List.getElem?_append_right (Nat.le_add_right _ _), Nat.add_sub_cancel_left,
      List.getElem?_append_right (Nat.le_refl _), Nat.sub_self, ← List.head?_eq_getElem?] at hb
    exact hback b hb

/-- A subject is all of its span. -/
theorem SubjectForm.span_eq (s : SubjectForm) (start : Nat) :
    (s.tree start).span = ⟨start, start + s.bytes.length⟩ := by
  cases s with
  | key name => rfl
  | call name gap function =>
      simp only [tree, Subject.span, CallForm.tree, keyAt, bytes, List.length_append,
        List.length_cons, Window.length_spaces]
      congr 1
      omega

/-- **A subject that no letters touch stands where it is written.** -/
theorem SubjectForm.stands {s : SubjectForm} (hs : s.WellFormed)
    (hfront : ∀ b, front.getLast? = some b → Byte.isLetter b = false)
    (hback : ∀ b, back.head? = some b → Byte.isLetter b = false) :
    (s.tree front.length).Stands (front ++ (s.bytes ++ back)) := by
  cases s with
  | key name => exact stands_key hs hfront hback
  | call name gap function =>
      have hspan := SubjectForm.span_eq (.call name gap function) front.length
      have hall : front ++ ((call name gap function).bytes ++ back) = front ++
          (Utf8.encode name ++ (Byte.dot :: (Byte.spaces gap ++ function.bytes) ++ back)) := by
        rw [bytes, List.append_assoc]
      have hlength : (call name gap function).bytes.length = (Utf8.encode name).length +
          (Byte.dot :: (Byte.spaces gap ++ function.bytes)).length := by
        rw [bytes, List.length_append]
      have hslice := Span.slice_append (front ++ Utf8.encode name)
        (Byte.dot :: (Byte.spaces gap ++ function.bytes)) back
      rw [List.append_assoc, List.length_append, Nat.add_assoc, ← hlength] at hslice
      have hstop : ((function.tree (keyAt name front.length)
          (front.length + (Utf8.encode name).length + 1 + gap)).span.stop) =
          front.length + (call name gap function).bytes.length :=
        congrArg Span.stop hspan
      refine ⟨?_, hs.2.name, rfl, ⟨?_, ?_⟩, gap,
        CallForm.argumentBytes function.blank function.args, ?_⟩
      · rw [hall]
        refine stands_key hs.1 hfront ?_
        intro b hb
        obtain rfl := Option.some.inj hb
        decide
      · rw [hstop, hlength]
        exact Nat.add_le_add_left (Nat.le_add_right _ _) _
      · rw [hstop]
        simp only [List.length_append]
        omega
      · rw [hstop, hall]
        exact hslice

/-! ## Borders that no run of letters crosses -/

/-- Blanks sever what stands in front of them. -/
theorem severed_append_spaces {s t : List UInt8} {n : Nat}
    (h : 0 < n ∨ Severed Byte.isLetter s t) :
    Severed Byte.isLetter (s ++ Byte.spaces n) t := by
  cases n with
  | zero =>
      rw [Byte.spaces, List.replicate_zero, List.append_nil]
      exact h.resolve_left (Nat.lt_irrefl 0)
  | succ n =>
      rw [Byte.spaces, List.replicate_succ', ← List.append_assoc]
      exact severed_concat (by decide) _ t

/-- A connector severs the clauses on its sides. -/
theorem Phrase.severed_connector {c : Connector} {token : List UInt8} {behind : Nat}
    {rhs : Phrase} (htoken : c.Writes token)
    (hword : Byte.spells c.word token = true → 0 < behind ∨ rhs.IsGroup) (s : List UInt8) :
    Severed Byte.isLetter (s ++ token ++ Byte.spaces behind) rhs.bytes := by
  apply severed_append_spaces
  rcases htoken with rfl | hspells
  · right
    obtain ⟨b, hsymbol, hb⟩ : ∃ b, Utf8.encode c.symbol = [b] ++ [b] ∧
        Byte.isLetter b = false := by
      cases c <;> exact ⟨_, rfl, by decide⟩
    rw [hsymbol, ← List.append_assoc]
    exact severed_concat hb _ _
  · refine (hword hspells).imp_right fun hgroup => ?_
    obtain ⟨rest, hrest⟩ := Phrase.exists_of_isGroup hgroup
    rw [hrest]
    exact severed_cons (by decide) _ rest

/-! ## Phrases -/

/-- The subject of a comparison stands where it is written: an operator or a blank is
behind it. -/
theorem ComparisonForm.stands {c : ComparisonForm} (hc : c.WellFormed) (back : List UInt8)
    (hfront : Severed Byte.isLetter front c.bytes) :
    (c.subject.tree front.length).Stands (front ++ (c.bytes ++ back)) := by
  obtain ⟨b, rest, hfirst, hb⟩ := SubjectForm.WellFormed.first hc.subject
  obtain ⟨o, more, hoperator, -, -, ho⟩ := c.operator.first
  have hall : front ++ (c.bytes ++ back) = front ++ (c.subject.bytes ++
      (Byte.spaces c.before ++ (c.operator.bytes ++
        (Byte.spaces c.behind ++ (c.literal ++ back))))) := by
    simp only [bytes, List.append_assoc]
  rw [hall]
  apply SubjectForm.stands hc.subject
  · intro a ha
    refine Bool.eq_false_iff.mpr fun hletter => ?_
    have hnot := hfront a b ha (by simp [bytes, hfirst]) hletter
    rw [hb] at hnot
    cases hnot
  · intro a ha
    cases hbefore : c.before with
    | zero =>
        rw [hbefore, hoperator] at ha
        obtain rfl := Option.some.inj ha
        exact ho
    | succ n =>
        rw [hbefore] at ha
        obtain rfl := Option.some.inj ha
        decide

/-- **The subjects of a phrase stand where they are written**, in any input that it is part
of without cutting a run of letters. -/
theorem Phrase.stands {p : Phrase} (hp : p.WellFormed) (back : List UInt8)
    (hfront : Severed Byte.isLetter front p.bytes) :
    ∀ c ∈ (p.query front.length).leaves, c.subject.Stands (front ++ (p.bytes ++ back)) := by
  induction p generalizing front back with
  | comparison c =>
      intro d hd
      obtain rfl := List.mem_singleton.mp hd
      exact ComparisonForm.stands hp back hfront
  | group before inner behind ih =>
      intro d hd
      have hall : front ++ ((group before inner behind).bytes ++ back) =
          front ++ [Byte.openParen] ++ Byte.spaces before ++ (inner.bytes ++
            (Byte.spaces behind ++ ([Byte.closeParen] ++ back))) := by
        simp only [bytes, List.append_assoc, List.cons_append, List.nil_append]
      have hstart : front.length + 1 + before =
          (front ++ [Byte.openParen] ++ Byte.spaces before).length := by
        simp only [List.length_append, List.length_singleton, Window.length_spaces]
      rw [query, Query.leaves, hstart] at hd
      rw [hall]
      exact ih hp _ (severed_append_spaces (.inr (severed_concat (by decide) _ _))) d hd
  | joined lhs before connector token behind rhs ihl ihr =>
      intro d hd
      obtain ⟨hlhs, hrhs, -, htoken, -, hword⟩ := hp
      rcases List.mem_append.mp hd with hd | hd
      · have hall : front ++ ((joined lhs before connector token behind rhs).bytes ++ back) =
            front ++ (lhs.bytes ++ (Byte.spaces before ++ (token ++
              (Byte.spaces behind ++ (rhs.bytes ++ back))))) := by
          simp only [bytes, List.append_assoc]
        rw [hall]
        refine ihl hlhs _ ?_ d hd
        simp only [bytes, List.append_assoc] at hfront
        exact hfront.mono_right
      · have hall : front ++ ((joined lhs before connector token behind rhs).bytes ++ back) =
            front ++ lhs.bytes ++ Byte.spaces before ++ token ++ Byte.spaces behind ++
              (rhs.bytes ++ back) := by
          simp only [bytes, List.append_assoc]
        have hstart : front.length + lhs.bytes.length + before + token.length + behind =
            (front ++ lhs.bytes ++ Byte.spaces before ++ token ++ Byte.spaces behind).length := by
          simp only [List.length_append, Window.length_spaces]
        rw [hstart] at hd
        rw [hall]
        exact ihr hrhs _ (severed_connector htoken hword _) d hd

/-- The subjects of a phrase lie in it, and none is empty. -/
theorem Phrase.span_of_mem_leaves {p : Phrase} (hp : p.WellFormed) {start : Nat}
    {c : Comparison} (hc : c ∈ (p.query start).leaves) :
    start ≤ c.subject.span.start ∧ c.subject.span.start < c.subject.span.stop ∧
      c.subject.span.stop ≤ start + p.bytes.length := by
  induction p generalizing start with
  | comparison d =>
      obtain rfl := List.mem_singleton.mp hc
      obtain ⟨b, rest, hbytes, -⟩ := SubjectForm.WellFormed.first hp.subject
      have hspan := d.subject.span_eq start
      have hpos : 0 < d.subject.bytes.length := by rw [hbytes]; exact Nat.succ_pos _
      simp only [ComparisonForm.tree, hspan, bytes, ComparisonForm.bytes, List.length_append]
      omega
  | group before inner behind ih =>
      have hinner := ih hp hc
      simp only [bytes, List.length_cons, List.length_append, Window.length_spaces]
      omega
  | joined lhs before connector token behind rhs ihl ihr =>
      simp only [bytes, List.length_append, Window.length_spaces]
      rcases List.mem_append.mp hc with hc | hc
      · have hlhs := ihl hp.1 hc
        omega
      · have hrhs := ihr hp.2.1 hc
        omega

/-- **From left to right the subjects of a phrase stand one behind the other.** -/
theorem Phrase.pairwise_leaves {p : Phrase} (hp : p.WellFormed) (start : Nat) :
    (p.query start).leaves.Pairwise fun c d => c.subject.span.stop ≤ d.subject.span.start := by
  induction p generalizing start with
  | comparison c => exact List.pairwise_singleton _ _
  | group before inner behind ih => exact ih hp _
  | joined lhs before connector token behind rhs ihl ihr =>
      refine List.pairwise_append.mpr ⟨ihl hp.1 _, ihr hp.2.1 _, ?_⟩
      intro c hc d hd
      have hlhs := span_of_mem_leaves hp.1 hc
      have hrhs := span_of_mem_leaves hp.2.1 hd
      omega

/-! ## Queries that are read -/

/-- **The spans of a query that is read point at the source.**  The subject of each of its
leaves stands where its span says.  Along the comparisons every subject takes up at least one
byte, and they stand one behind the other. -/
theorem stands_of_parseWith {limits : Limits} {input : List UInt8} {q : Query}
    (h : parseWith limits input = .ok q) :
    (∀ c ∈ q.leaves, c.subject.Stands input) ∧
      (∀ c ∈ q.comparisons, c.subject.span.start < c.subject.span.stop) ∧
      q.comparisons.Pairwise fun c d => c.subject.span.stop ≤ d.subject.span.start := by
  obtain ⟨e, he, rfl, rfl⟩ := derives_of_parseWith h
  rw [Query.comparisons_eq_leaves]
  refine ⟨fun c hc => ?_, fun c hc => (Phrase.span_of_mem_leaves he hc).2.1,
    Phrase.pairwise_leaves he _⟩
  have hfront : Severed Byte.isLetter ([] ++ Byte.spaces e.before) e.phrase.bytes :=
    severed_append_spaces (.inr fun _ _ hb => nomatch hb)
  have hstart : 0 + e.before = ([] ++ Byte.spaces e.before).length := by
    simp
  rw [Expression.query, hstart] at hc
  have hstands := Phrase.stands he (Byte.spaces e.behind) hfront c hc
  rwa [List.nil_append, ← List.append_assoc] at hstands

/-- The subject of `(a.b()<1)`. -/
theorem stands_of_parseWith_call :
    let input : List UInt8 := [Byte.openParen, 0x61, Byte.dot, 0x62, Byte.openParen,
      Byte.closeParen, Byte.less, 0x31, Byte.closeParen]
    let c : Comparison := ⟨.call ⟨⟨"a", ⟨1, 2⟩⟩, "b", [], ⟨1, 6⟩⟩, .less, .integer 1⟩
    parseWith .standard input = .ok (.group (.comparison c)) ∧ c.subject.Stands input := by
  intro input c
  have hexpression : (⟨0, .group 0 (.comparison ⟨.call "a" 0 ⟨"b", 0, []⟩, 0, .less, 0,
      .integer 1, Byte.sign false ++ [0x31]⟩) 0, 0⟩ : Expression).WellFormed :=
    ⟨⟨by decide, by decide, fun _ hmem => nomatch hmem⟩, .integer false (by decide) (by decide)⟩
  have hread : parseWith .standard input = .ok (.group (.comparison c)) :=
    parseWith_expression hexpression (by decide)
  have hstands := (stands_of_parseWith hread).1
  exact ⟨hread, hstands c List.mem_cons_self⟩

end RecordFilter
