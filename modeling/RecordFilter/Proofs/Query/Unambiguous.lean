import RecordFilter.Proofs.Query.Canonical
import RecordFilter.Proofs.Query.Equality
import RecordFilter.Proofs.Grammar.First
import RecordFilter.Proofs.Grouping.Phrase
import RecordFilter.Proofs.Reading.Call

/-!
# Texts tell queries apart

The text of a query that nests to the left is the text of no other, up to spans.  No limit
on its length is needed for that: every reader of a part is a function, and what it takes off
the front of the bytes is the part.  So where two comparisons start at the same byte, and a
blank or the end is behind each, they are the same and end at the same byte.  A group ends
where its parenthesis is closed, which a scan finds that knows nothing of queries; and a
chain is compared clause by clause.

* `ComparisonForm.unique` — one comparison starts at a byte;
* `withoutSpans_eq_of_text_eq` — one query has a text;
* `text_decides_equality` — equality of queries is equality of their texts.
-/

namespace RecordFilter

variable {w u v : Window}

/-! ## Subjects and comparisons -/

/-- A byte starts here that neither continues a subject nor is a blank. -/
def Window.LeavesSubject (u : Window) : Prop :=
  ∃ b, u.peek? = some b ∧ b ≠ Byte.space ∧ b ≠ Byte.dot ∧ Byte.isLetter b = false

/-- In front of such a byte, and of blanks before it, no subject goes on. -/
theorem Window.LeavesSubject.peek?_of_spaces {n : Nat} (hu : u.LeavesSubject)
    (h : w.Takes (Byte.spaces n) u) {b : UInt8} (hb : w.peek? = some b) :
    Byte.isLetter b = false ∧ b ≠ Byte.dot := by
  obtain ⟨c, hc, -, hdot, hletter⟩ := hu
  cases n with
  | zero =>
      obtain rfl := h.eq_of_nil rfl
      obtain rfl := Option.some.inj (hb.symm.trans hc)
      exact ⟨hletter, hdot⟩
  | succ n =>
      obtain rfl := h.eq_of_peek? hb
      decide

/-- What ends a subject is no blank. -/
theorem Window.LeavesSubject.peek?_ne_space (hu : u.LeavesSubject) :
    u.peek? ≠ some Byte.space := by
  obtain ⟨b, hb, hspace, -⟩ := hu
  rw [hb]
  exact fun h => hspace (Option.some.inj h)

theorem Operator.leavesSubject {o : Operator} (h : w.Takes o.bytes u) : w.LeavesSubject := by
  obtain ⟨b, rest, hbytes, hspace, hdot, hletter⟩ := o.first
  rw [hbytes] at h
  exact ⟨b, h.peek?_cons, hspace, hdot, hletter⟩

/-- The letters at the front of a window are one name only. -/
theorem IsName.unique {name other : String} (hname : IsName name) (hother : IsName other)
    (hu : w.Takes (Utf8.encode name) u) (hv : w.Takes (Utf8.encode other) v)
    (hbehind : ∀ b, u.peek? = some b → Byte.isLetter b = false)
    (hbehind' : ∀ b, v.peek? = some b → Byte.isLetter b = false) : name = other ∧ u = v := by
  obtain ⟨hrun, hskip⟩ := hu.run_eq hname.letters_encode hbehind
  obtain ⟨hrun', hskip'⟩ := hv.run_eq hother.letters_encode hbehind'
  exact ⟨Utf8.encode_inj (hrun.symm.trans hrun'), hskip.symm.trans hskip'⟩

/-- A point ends a name. -/
theorem Window.not_isLetter_of_dot {rest : List UInt8} {b : UInt8}
    (h : w.Takes (Byte.dot :: rest) u) (hb : w.peek? = some b) : Byte.isLetter b = false := by
  obtain rfl := h.eq_of_peek? hb
  decide

/-- A point behind a name calls a function, so no bare key stands there. -/
theorem SubjectForm.not_key_of_call {name other : String} {n : Nat} {rest : List UInt8}
    (hname : IsName name) (hother : IsName other)
    (hu : w.Takes (Utf8.encode name ++ Byte.spaces n) u) (hleaves : u.LeavesSubject)
    (hv : w.Takes (Utf8.encode other ++ Byte.dot :: rest) v) : False := by
  obtain ⟨a, hkey, hspaces⟩ := hu.split
  obtain ⟨c, hcall, hpoint⟩ := hv.split
  obtain ⟨-, rfl⟩ := hname.unique hother hkey hcall
    (fun b hb => (hleaves.peek?_of_spaces hspaces hb).1)
    (fun b hb => Window.not_isLetter_of_dot hpoint hb)
  exact (hleaves.peek?_of_spaces hspaces hpoint.peek?_cons).2 rfl

/-- One function starts behind the blanks that follow a point. -/
theorem CallForm.unique {c d : CallForm} {gap gap' : Nat} (hc : c.WellFormed)
    (hd : d.WellFormed) (key : Key) (hu : w.Takes (Byte.spaces gap ++ c.bytes) u)
    (hv : w.Takes (Byte.spaces gap' ++ d.bytes) v) :
    c.tree key (w.pos + gap) = d.tree key (w.pos + gap') ∧ u = v := by
  obtain ⟨a, hgap, hcall⟩ := hu.split
  obtain ⟨b, hgap', hcall'⟩ := hv.split
  have hsame : a = b :=
    hgap.eq_of_spaces hgap' (hc.peek?_ne_space hcall) (hd.peek?_ne_space hcall')
  have hpos : w.pos + gap = w.pos + gap' := by
    rw [← Window.length_spaces gap, ← Window.length_spaces gap', ← hgap.pos_eq,
      ← hgap'.pos_eq, hsame]
  subst hsame
  have hread : FunctionCall.read key a = .ok (c.tree key a.pos, u) :=
    FunctionCall.read_of_takes hc hcall
  rw [FunctionCall.read_of_takes hd hcall'] at hread
  obtain ⟨htree, rfl⟩ := Prod.mk.inj (Except.ok.inj hread)
  rw [hgap.pos_eq, Window.length_spaces] at htree
  rw [← hpos]
  exact ⟨htree.symm, rfl⟩

/-- **One subject starts at a byte.** -/
theorem SubjectForm.unique {s t : SubjectForm} {m n : Nat} (hs : s.WellFormed)
    (ht : t.WellFormed) (hu : w.Takes (s.bytes ++ Byte.spaces m) u)
    (hv : w.Takes (t.bytes ++ Byte.spaces n) v) (hleaves : u.LeavesSubject)
    (hleaves' : v.LeavesSubject) : s.tree w.pos = t.tree w.pos ∧ u = v := by
  cases s with
  | key name =>
      cases t with
      | key other =>
          obtain ⟨a, hname, hspaces⟩ := hu.split
          obtain ⟨b, hname', hspaces'⟩ := hv.split
          obtain ⟨rfl, rfl⟩ := IsName.unique hs ht hname hname'
            (fun c hc => (hleaves.peek?_of_spaces hspaces hc).1)
            (fun c hc => (hleaves'.peek?_of_spaces hspaces' hc).1)
          exact ⟨rfl, hspaces.eq_of_spaces hspaces' hleaves.peek?_ne_space
            hleaves'.peek?_ne_space⟩
      | call other gap function =>
          rw [bytes, List.append_assoc] at hv
          exact (not_key_of_call hs ht.1 hu hleaves hv).elim
  | call name gap function =>
      rw [bytes, List.append_assoc] at hu
      cases t with
      | key other => exact (not_key_of_call ht hs.1 hv hleaves' hu).elim
      | call other gap' function' =>
          rw [bytes, List.append_assoc] at hv
          obtain ⟨a, hname, hbehind⟩ := hu.split
          obtain ⟨b, hname', hbehind'⟩ := hv.split
          obtain ⟨rfl, rfl⟩ := IsName.unique hs.1 ht.1 hname hname'
            (fun c hc => Window.not_isLetter_of_dot hbehind hc)
            (fun c hc => Window.not_isLetter_of_dot hbehind' hc)
          obtain ⟨p, hpoint, hcall⟩ := Window.Takes.split (s := [Byte.dot]) hbehind
          obtain ⟨p', hpoint', hcall'⟩ := Window.Takes.split (s := [Byte.dot]) hbehind'
          obtain rfl := hpoint.unique hpoint'
          obtain ⟨x, hcall, hspaces⟩ := hcall.split
          obtain ⟨y, hcall', hspaces'⟩ := hcall'.split
          obtain ⟨htree, rfl⟩ := CallForm.unique hs.2 ht.2 (keyAt name w.pos) hcall hcall'
          rw [hpoint.pos_eq, hname.pos_eq] at htree
          exact ⟨congrArg Subject.call htree, hspaces.eq_of_spaces hspaces'
            hleaves.peek?_ne_space hleaves'.peek?_ne_space⟩

/-- **One comparison starts at a byte**, if a delimiter or the end is behind its value. -/
theorem ComparisonForm.unique {c d : ComparisonForm} (hc : c.WellFormed) (hd : d.WellFormed)
    (hu : w.Takes c.bytes u) (hv : w.Takes d.bytes v)
    (hdelimits : Literal.Delimits .operand u) (hdelimits' : Literal.Delimits .operand v) :
    c.tree w.pos = d.tree w.pos ∧ u = v := by
  obtain ⟨a, htakes, hvalue⟩ := hu.split
  obtain ⟨behind, htakes, hblanks⟩ := htakes.split
  obtain ⟨before, hsubject, hoperator⟩ := htakes.split
  obtain ⟨a', htakes', hvalue'⟩ := hv.split
  obtain ⟨behind', htakes', hblanks'⟩ := htakes'.split
  obtain ⟨before', hsubject', hoperator'⟩ := htakes'.split
  obtain ⟨htree, rfl⟩ := SubjectForm.unique hc.subject hd.subject hsubject hsubject'
    (Operator.leavesSubject hoperator) (Operator.leavesSubject hoperator')
  have hread := Operator.read_of_literal hoperator hblanks hc.value hvalue
  rw [Operator.read_of_literal hoperator' hblanks' hd.value hvalue'] at hread
  obtain ⟨hsame, rfl⟩ := Prod.mk.inj (Except.ok.inj hread)
  have hspace := (Literal.peek?_of_writes hc.value hvalue).1
  have hspace' := (Literal.peek?_of_writes hd.value hvalue').1
  obtain rfl := hblanks.eq_of_spaces hblanks' hspace hspace'
  have hliteral := Literal.read_eq_ok_iff.mpr ⟨_, hvalue, hc.value, hdelimits⟩
  rw [Literal.read_eq_ok_iff.mpr ⟨_, hvalue', hd.value, hdelimits'⟩] at hliteral
  obtain ⟨hsameValue, rfl⟩ := Prod.mk.inj (Except.ok.inj hliteral)
  rw [tree, tree, htree, hsame, hsameValue]
  exact ⟨rfl, rfl⟩

/-! ## Clauses -/

/-- A parenthesis is closed at one byte, so one content stands behind it. -/
theorem Grouping.Balanced.unique {s t rest rest' : List UInt8} (hs : Balanced s)
    (ht : Balanced t) (h : s ++ Byte.closeParen :: rest = t ++ Byte.closeParen :: rest') :
    s = t ∧ rest = rest' := by
  have hscan := closing?_of_balanced hs rest
  rw [h, closing?_of_balanced ht rest'] at hscan
  have hlength : s.length = t.length := (Option.some.inj hscan).symm
  obtain ⟨hcontent, hbehind⟩ := List.append_inj h hlength
  exact ⟨hcontent, (List.cons.inj hbehind).2⟩

namespace Query

/-- A single clause, as it stands in a chain that was read. -/
structure IsClause (q : Query) : Prop where
  wellFormed : q.WellFormed
  leftNested : q.LeftNested
  notLogical : ¬q.IsLogical

/-- A chain is made of clauses. -/
theorem isClause_of_chain {q : Query} (h : q.WellFormed) (hleft : q.LeftNested) :
    IsClause q.chain.1 ∧ ∀ link ∈ q.chain.2, IsClause link.2 := by
  induction q with
  | comparison c => exact ⟨⟨h, hleft, id⟩, List.forall_mem_nil _⟩
  | group inner _ => exact ⟨⟨h, hleft, id⟩, List.forall_mem_nil _⟩
  | logical lhs connector rhs ihl _ =>
      obtain ⟨hhead, hlinks⟩ := ihl h.1 hleft.1
      rw [chain_logical]
      refine ⟨hhead, List.forall_mem_append.mpr ⟨hlinks, ?_⟩⟩
      intro link hlink
      obtain rfl := List.mem_singleton.mp hlink
      exact ⟨h.2, hleft.2.1, hleft.2.2⟩

/-- What is written for a connector and the clause behind it. -/
def linkBytes (link : Connector × Query) : List UInt8 :=
  Byte.space :: (Utf8.encode link.1.symbol ++ Byte.space :: Utf8.encode link.2.text)

/-- The bytes of a query, clause by clause. -/
theorem encode_text_eq (q : Query) :
    Utf8.encode q.text = Utf8.encode q.chain.1.text ++ q.chain.2.flatMap linkBytes := by
  induction q with
  | comparison c => exact (List.append_nil _).symm
  | group inner _ => exact (List.append_nil _).symm
  | logical lhs connector rhs ihl _ =>
      have hlink : Utf8.encode (" " ++ connector.symbol ++ " " ++ rhs.text) =
          linkBytes (connector, rhs) := by
        simp only [Utf8.encode_append, List.append_assoc]
        rfl
      rw [text_logical, Utf8.encode_append, hlink, ihl, chain_logical, List.flatMap_append,
        List.append_assoc, List.flatMap_singleton]

/-- A group is written between its parentheses. -/
theorem encode_text_group (inner : Query) : Utf8.encode (group inner).text =
    Byte.openParen :: (Utf8.encode inner.text ++ [Byte.closeParen]) := by
  rw [text_group, Utf8.encode_append, Utf8.encode_append]
  rfl

/-- The text of a query opens and closes its own parentheses. -/
theorem balanced_encode_text {q : Query} (h : q.WellFormed) (hleft : q.LeftNested) :
    Grouping.Balanced (Utf8.encode q.text) := by
  rw [← bytes_phrase]
  exact (wellFormed_phrase h hleft).balanced

/-- The text of a comparison starts with a letter, and that of a group does not. -/
theorem not_group_of_comparison {c : Comparison} {inner : Query} {s t : List UInt8}
    (hc : c.WellFormed)
    (h : Utf8.encode (comparison c).text ++ s = Utf8.encode (group inner).text ++ t) :
    False := by
  obtain ⟨b, rest, hbytes, hletter⟩ :=
    SubjectForm.WellFormed.first (Subject.wellFormed_written hc.subject)
  rw [text_comparison, encode_text_group, ← c.bytes_written, ComparisonForm.bytes] at h
  simp only [Comparison.written, hbytes, List.cons_append] at h
  obtain ⟨rfl, -⟩ := List.cons.inj h
  exact absurd hletter (by decide)

/-- Nothing follows, or a blank does. -/
def AtBlank (s : List UInt8) : Prop := ∀ b, s.head? = some b → b = Byte.space

/-- Links start with a blank, if there are any. -/
theorem atBlank_links (links : List (Connector × Query)) : AtBlank (links.flatMap linkBytes) := by
  intro b hb
  cases links with
  | nil => cases hb
  | cons link links =>
      rw [List.flatMap_cons] at hb
      exact (Option.some.inj hb).symm

/-- A blank, or the end, ends a value. -/
theorem AtBlank.delimits {s : List UInt8} (h : AtBlank s) (pos : Nat) :
    Literal.Delimits .operand ⟨pos, s⟩ := by
  intro b hb
  obtain rfl := h b hb
  rfl

/-- Where the text of `p` stands in front of a blank or the end, no clause with another
tree does. -/
def Recognised (p : Query) : Prop :=
  ∀ (q : Query) (s t : List UInt8), IsClause q → AtBlank s → AtBlank t →
    Utf8.encode p.text ++ s = Utf8.encode q.text ++ t →
      p.withoutSpans = q.withoutSpans ∧ s = t

/-- The text of a comparison is that of no other clause. -/
theorem recognised_comparison {c : Comparison} (hc : c.WellFormed) :
    Recognised (comparison c) := by
  intro q s t hq hs ht h
  cases q with
  | logical _ _ _ => exact absurd trivial hq.notLogical
  | group inner => exact (not_group_of_comparison hc h).elim
  | comparison d =>
      rw [text_comparison, text_comparison, ← c.bytes_written, ← d.bytes_written] at h
      let w : Window := ⟨0, c.written.bytes ++ s⟩
      have hu : w.Takes c.written.bytes ⟨0 + c.written.bytes.length, s⟩ := ⟨rfl, rfl⟩
      have hv : w.Takes d.written.bytes ⟨0 + d.written.bytes.length, t⟩ := ⟨h, rfl⟩
      obtain ⟨htree, hend⟩ := ComparisonForm.unique (Comparison.wellFormed_written hc)
        (Comparison.wellFormed_written hq.wellFormed) hu hv (hs.delimits _) (ht.delimits _)
      have htrees : (comparison c).phrase.query 0 = (comparison d).phrase.query 0 :=
        congrArg comparison htree
      refine ⟨?_, congrArg Window.rest hend⟩
      rw [← withoutSpans_query_phrase (comparison c) 0, htrees, withoutSpans_query_phrase]

/-- The clauses behind the first are recognised one after the other. -/
theorem links_unique {links others : List (Connector × Query)}
    (hlinks : ∀ link ∈ links, Recognised link.2) (hothers : ∀ link ∈ others, IsClause link.2)
    (h : links.flatMap linkBytes = others.flatMap linkBytes) :
    links.map (fun link => (link.1, link.2.withoutSpans)) =
      others.map fun link => (link.1, link.2.withoutSpans) := by
  induction links generalizing others with
  | nil =>
      cases others with
      | nil => rfl
      | cons other others => cases h
  | cons link links ih =>
      cases others with
      | nil => cases h
      | cons other others =>
          obtain ⟨c, p⟩ := link
          obtain ⟨d, q⟩ := other
          rw [List.flatMap_cons, List.flatMap_cons] at h
          simp only [linkBytes, List.cons_append, List.append_assoc] at h
          have hbytes := (List.cons.inj h).2
          -- Both symbols have two bytes, and their first bytes differ.
          have hsymbol : c = d ∧ Utf8.encode p.text ++ links.flatMap linkBytes =
              Utf8.encode q.text ++ others.flatMap linkBytes := by
            cases c <;> cases d
            · exact ⟨rfl, by simpa using hbytes⟩
            · exact absurd (List.cons.inj hbytes).1 (by decide)
            · exact absurd (List.cons.inj hbytes).1 (by decide)
            · exact ⟨rfl, by simpa using hbytes⟩
          obtain ⟨rfl, hclause⟩ := hsymbol
          obtain ⟨htree, hrest⟩ := hlinks (c, p) List.mem_cons_self q _ _
            (hothers (c, q) List.mem_cons_self) (atBlank_links links) (atBlank_links others)
            hclause
          have htail := ih (fun l hl => hlinks l (List.mem_cons_of_mem _ hl))
            (fun l hl => hothers l (List.mem_cons_of_mem _ hl)) hrest
          rw [List.map_cons, List.map_cons, htree, htail]

/-- A query whose clauses are recognised is told by its text. -/
theorem withoutSpans_eq_of_recognised {p q : Query} (hq : q.WellFormed)
    (hleft : q.LeftNested) (hhead : Recognised p.chain.1)
    (hlinks : ∀ link ∈ p.chain.2, Recognised link.2)
    (h : Utf8.encode p.text = Utf8.encode q.text) : p.withoutSpans = q.withoutSpans := by
  obtain ⟨hclause, hclauses⟩ := isClause_of_chain hq hleft
  rw [encode_text_eq p, encode_text_eq q] at h
  obtain ⟨htree, hrest⟩ := hhead q.chain.1 _ _ hclause (atBlank_links _) (atBlank_links _) h
  apply eq_of_chain_eq
  rw [chain_withoutSpans, chain_withoutSpans, htree, links_unique hlinks hclauses hrest]

/-- **Every clause is recognised.**  The induction is on the size of the clause: the clauses
in a group are smaller than the group. -/
theorem IsClause.recognised {p : Query} (hp : IsClause p) : Recognised p := by
  induction hn : p.size using Nat.strongRecOn generalizing p with
  | ind n ih =>
      cases p with
      | logical _ _ _ => exact absurd trivial hp.notLogical
      | comparison c => exact recognised_comparison hp.wellFormed
      | group inner =>
          have hwell : inner.WellFormed := hp.wellFormed
          have hnested : inner.LeftNested := hp.leftNested
          have hsize : inner.size < n := by
            rw [← hn, size]
            exact Nat.lt_succ_self _
          obtain ⟨hclause, hclauses⟩ := isClause_of_chain hwell hnested
          have hhead : Recognised inner.chain.1 :=
            ih _ (Nat.lt_of_le_of_lt (size_unroll_fst_le inner []) hsize) hclause rfl
          have hlinks : ∀ link ∈ inner.chain.2, Recognised link.2 := fun link hlink =>
            ih _ (Nat.lt_trans (size_lt_of_mem_chain hlink) hsize) (hclauses link hlink) rfl
          intro q s t hq _ _ h
          cases q with
          | logical _ _ _ => exact absurd trivial hq.notLogical
          | comparison d => exact (not_group_of_comparison hq.wellFormed h.symm).elim
          | group inner' =>
              have hwell' : inner'.WellFormed := hq.wellFormed
              have hnested' : inner'.LeftNested := hq.leftNested
              rw [encode_text_group, encode_text_group] at h
              simp only [List.cons_append, List.append_assoc] at h
              obtain ⟨hcontent, hrest⟩ := (balanced_encode_text hwell hnested).unique
                (balanced_encode_text hwell' hnested') (List.cons.inj h).2
              exact ⟨congrArg group
                (withoutSpans_eq_of_recognised hwell' hnested' hhead hlinks hcontent), hrest⟩

/-- **A text belongs to one query**, up to spans, among those that nest to the left. -/
theorem withoutSpans_eq_of_text_eq {p q : Query} (hp : p.WellFormed) (hq : q.WellFormed)
    (hpleft : p.LeftNested) (hqleft : q.LeftNested) (h : p.text = q.text) :
    p.withoutSpans = q.withoutSpans := by
  obtain ⟨hclause, hclauses⟩ := isClause_of_chain hp hpleft
  exact withoutSpans_eq_of_recognised hq hqleft hclause.recognised
    (fun link hlink => (hclauses link hlink).recognised) (congrArg Utf8.encode h)

/-- **The text decides equality.**  Equal queries have the same text, whatever their shape and
their names, if neither has a zero with a minus sign; NaN need not be excluded, as it makes a
query equal to nothing.  The other way, queries that are well-formed and nest to the left are
equal if they have the same text. -/
theorem text_decides_equality (p q : Query) :
    ((∀ x ∈ p.decimals, x.isNegativeZero = false) →
      (∀ x ∈ q.decimals, x.isNegativeZero = false) → (p == q) = true → p.text = q.text) ∧
    (p.WellFormed → q.WellFormed → p.LeftNested → q.LeftNested → p.text = q.text →
      (p == q) = true) := by
  constructor
  · intro hp hq h
    rw [← text_withoutSpans p, withoutSpans_eq_of_beq hp hq h, text_withoutSpans]
  · intro hp hq hpleft hqleft h
    exact beq_of_withoutSpans_eq hq (withoutSpans_eq_of_text_eq hp hq hpleft hqleft h)

/-- The query `(a.f(") && b", 0.5) == -7) && AND < true`, all of it at one place. -/
def standingAt (s : Span) : Query :=
  .logical
    (.group (.comparison
      ⟨.call ⟨⟨"a", s⟩, "f", [.string ") && b", .decimal ⟨0x3FE0000000000000⟩], s⟩, .equals,
        .integer (-7)⟩))
    .and (.comparison ⟨.key ⟨"AND", s⟩, .less, .boolean true⟩)

theorem wellFormed_standingAt (s : Span) : (standingAt s).WellFormed := by
  have hhalf : Binary64.isFinite ⟨0x3FE0000000000000⟩ = true := by decide
  refine ⟨⟨⟨?_, ?_, ?_⟩, trivial⟩, ⟨?_, trivial⟩⟩
  · exact (by decide : IsName "a")
  · exact (by decide : IsName "f")
  · exact List.forall_mem_cons.mpr ⟨trivial, List.forall_mem_singleton.mpr hhalf⟩
  · exact (by decide : IsName "AND")

theorem leftNested_standingAt (s : Span) : (standingAt s).LeftNested := ⟨trivial, trivial, id⟩

theorem isNegativeZero_decimals_standingAt (s : Span) :
    ∀ x ∈ (standingAt s).decimals, x.isNegativeZero = false := by
  intro x hx
  obtain rfl : x = ⟨0x3FE0000000000000⟩ := List.mem_singleton.mp hx
  decide

/-- At two places it is equal to itself, and has the same text. -/
theorem text_decides_equality_standingAt :
    (∀ x ∈ (standingAt ⟨3, 5⟩).decimals, x.isNegativeZero = false) ∧
      ((standingAt ⟨3, 5⟩).WellFormed ∧ (standingAt ⟨3, 5⟩).LeftNested) ∧
      (standingAt ⟨3, 5⟩ == standingAt .nowhere) = true ∧
      (standingAt ⟨3, 5⟩).text = (standingAt .nowhere).text := by
  have hplain := isNegativeZero_decimals_standingAt
  have hwell := wellFormed_standingAt
  have hleft := leftNested_standingAt
  have htext : (standingAt ⟨3, 5⟩).text = (standingAt .nowhere).text :=
    (text_decides_equality _ _).1 (hplain _) (hplain _) (by decide)
  have hequal : (standingAt ⟨3, 5⟩ == standingAt .nowhere) = true :=
    (text_decides_equality _ _).2 (hwell _) (hwell _) (hleft _) (hleft _) htext
  exact ⟨hplain _, ⟨hwell _, hleft _⟩, hequal, htext⟩

end Query

end RecordFilter
