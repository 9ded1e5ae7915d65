import RecordFilter.Limits
import RecordFilter.SyntaxError
import RecordFilter.Proofs.Grammar.First
import RecordFilter.Proofs.Query.Measure

/-!
# Where the limits look

Clauses are counted, and the nesting of groups is checked, where a clause starts.  The
sites of a phrase are these places in the order in which they are met: a group stands
before its contents.  The limits cut a phrase off at the first site that offends.

* `excess?_append` — the count goes on from one phrase to the next;
* `Phrase.first_of_mem_sites`, `Phrase.pairwise_sites` — a site is the first byte of a
  clause, and later clauses have later sites;
* `Expression.excess?_eq_none_iff` — nothing offends exactly if the tree stays within the
  limits.
-/

namespace RecordFilter

/-- The greatest limits there are. -/
def Limits.unlimited : Limits :=
  ⟨0xFFFFFFFFFFFFFFFF, 0xFFFFFFFFFFFFFFFF, 0xFFFFFFFFFFFFFFFF⟩

/-- The start of a clause.  `nesting` is the number of groups around the contents of a
group, and zero at a comparison. -/
structure Site where
  offset : Nat
  nesting : Nat

namespace Site

variable (limits : Limits)

/-- What is wrong with a site where `begun` clauses have begun before. -/
def fault? (begun : Nat) (s : Site) : Option SyntaxError :=
  if limits.clauses.toNat < begun + 1 then
    some ⟨.limitExceeded, s.offset, .clause, "fewer clauses (see max_clauses)"⟩
  else if limits.depth.toNat < s.nesting then
    some ⟨.limitExceeded, s.offset, .group, "shallower nesting (see max_depth)"⟩
  else none

/-- What is wrong with the first of several sites that offends. -/
def excess? (begun : Nat) : List Site → Option SyntaxError
  | [] => none
  | s :: sites => (s.fault? limits begun).or (excess? (begun + 1) sites)

/-- The first site over the limits is in front, or else behind what was begun in front. -/
theorem excess?_append (begun : Nat) (front back : List Site) :
    excess? limits begun (front ++ back) =
      (excess? limits begun front).or (excess? limits (begun + front.length) back) := by
  induction front generalizing begun with
  | nil => rfl
  | cons s front ih =>
      rw [List.cons_append, excess?, excess?, ih, List.length_cons, Option.or_assoc,
        Nat.add_assoc, Nat.add_comm 1]

/-- A site is allowed if neither the clauses nor the nesting are too many there. -/
theorem fault?_eq_none_iff {begun : Nat} {s : Site} :
    s.fault? limits begun = none ↔
      begun + 1 ≤ limits.clauses.toNat ∧ s.nesting ≤ limits.depth.toNat := by
  unfold fault?
  split
  · simp only [reduceCtorEq, false_iff]
    omega
  split
  · simp only [reduceCtorEq, false_iff]
    omega
  · simp only [true_iff]
    omega

/-- No site offends if they are not too many and none of them is too deep. -/
theorem excess?_eq_none_iff {begun : Nat} {sites : List Site} :
    excess? limits begun sites = none ↔
      (sites = [] ∨ begun + sites.length ≤ limits.clauses.toNat) ∧
        ∀ s ∈ sites, s.nesting ≤ limits.depth.toNat := by
  induction sites generalizing begun with
  | nil => simp [excess?]
  | cons s sites ih =>
      rw [excess?, Option.or_eq_none_iff, fault?_eq_none_iff, ih]
      simp only [List.forall_mem_cons, List.length_cons, reduceCtorEq, false_or]
      constructor
      · intro h
        obtain ⟨⟨hbegun, hs⟩, hcount, hsites⟩ := h
        refine ⟨?_, hs, hsites⟩
        rcases hcount with rfl | hcount
        · exact hbegun
        · omega
      · intro h
        obtain ⟨hcount, hs, hsites⟩ := h
        exact ⟨⟨by omega, hs⟩, .inr (by omega), hsites⟩

/-- The first site that offends, if one does. -/
theorem exists_fault {begun : Nat} {sites : List Site} {e : SyntaxError}
    (h : excess? limits begun sites = some e) :
    ∃ (i : Nat) (s : Site), sites[i]? = some s ∧ s.fault? limits (begun + i) = some e ∧
      ∀ (j : Nat) (t : Site), j < i → sites[j]? = some t →
        t.fault? limits (begun + j) = none := by
  induction sites generalizing begun with
  | nil => cases h
  | cons s sites ih =>
      rw [excess?, Option.or_eq_some_iff] at h
      rcases h with hfirst | ⟨hnone, hrest⟩
      · refine ⟨0, s, rfl, hfirst, fun j t hj => absurd hj (Nat.not_lt_zero j)⟩
      · obtain ⟨i, t, ht, hfault, hbefore⟩ := ih hrest
        refine ⟨i + 1, t, by simpa using ht, by rwa [Nat.add_right_comm] at hfault, ?_⟩
        intro j u hj hu
        cases j with
        | zero =>
            obtain rfl : s = u := by simpa using hu
            exact hnone
        | succ j =>
            rw [← Nat.add_assoc, Nat.add_right_comm]
            exact hbefore j u (by omega) (by simpa using hu)

end Site

namespace Phrase

/-- The sites of a phrase that starts at offset `start`, inside `depth` groups. -/
def sites (start depth : Nat) : Phrase → List Site
  | comparison _ => [⟨start, 0⟩]
  | group before inner _ =>
      ⟨start, depth + 1⟩ :: inner.sites (start + 1 + before) (depth + 1)
  | joined lhs before _ token behind rhs =>
      lhs.sites start depth ++
        rhs.sites (start + lhs.bytes.length + before + token.length + behind) depth

/-- **A site is where a clause starts**: at the parenthesis of a group, or at the first
letter of a comparison. -/
theorem first_of_mem_sites {p : Phrase} (hp : p.WellFormed) {start depth : Nat} {s : Site}
    (h : s ∈ p.sites start depth) :
    ∃ k b, s.offset = start + k ∧ p.bytes[k]? = some b ∧
      if s.nesting = 0 then Byte.isLetter b = true else b = Byte.openParen := by
  induction p generalizing start depth with
  | comparison c =>
      obtain rfl := List.mem_singleton.mp h
      obtain ⟨b, rest, hbytes, hb⟩ := SubjectForm.WellFormed.first hp.subject
      refine ⟨0, b, rfl, ?_, hb⟩
      simp [bytes, ComparisonForm.bytes, hbytes]
  | group before inner behind ih =>
      rcases List.mem_cons.mp h with rfl | h
      · exact ⟨0, Byte.openParen, rfl, rfl, rfl⟩
      · obtain ⟨k, b, hoffset, hbyte, hb⟩ := ih hp h
        have hk := (List.getElem?_eq_some_iff.mp hbyte).1
        refine ⟨1 + before + k, b, by omega, ?_, hb⟩
        rw [bytes, Nat.add_comm 1, Nat.add_right_comm, List.getElem?_cons_succ,
          List.append_assoc, List.append_assoc, List.getElem?_append_right (by simp),
          Window.length_spaces, Nat.add_sub_cancel_left, List.getElem?_append_left hk, hbyte]
  | joined lhs before connector token behind rhs ihl ihr =>
      rcases List.mem_append.mp h with h | h
      · obtain ⟨k, b, hoffset, hbyte, hb⟩ := ihl hp.1 h
        have hk := (List.getElem?_eq_some_iff.mp hbyte).1
        refine ⟨k, b, hoffset, ?_, hb⟩
        rw [bytes, List.append_assoc, List.append_assoc, List.append_assoc,
          List.getElem?_append_left hk, hbyte]
      · obtain ⟨k, b, hoffset, hbyte, hb⟩ := ihr hp.2.1 h
        refine ⟨lhs.bytes.length + before + token.length + behind + k, b, by omega, ?_, hb⟩
        have hfront : (lhs.bytes ++ Byte.spaces before ++ token ++ Byte.spaces behind).length =
            lhs.bytes.length + before + token.length + behind := by
          simp only [List.length_append, Window.length_spaces]
        rw [bytes, ← hfront, List.getElem?_append_right (Nat.le_add_right _ _),
          Nat.add_sub_cancel_left, hbyte]

/-- The sites of a phrase stand in the order of the source. -/
theorem pairwise_sites {p : Phrase} (hp : p.WellFormed) (start depth : Nat) :
    (p.sites start depth).Pairwise fun s t => s.offset < t.offset := by
  induction p generalizing start depth with
  | comparison c => exact List.pairwise_singleton _ _
  | group before inner behind ih =>
      refine List.pairwise_cons.mpr ⟨?_, ih hp _ _⟩
      intro t ht
      obtain ⟨k, b, hoffset, -⟩ := first_of_mem_sites (p := inner) hp ht
      dsimp only
      omega
  | joined lhs before connector token behind rhs ihl ihr =>
      refine List.pairwise_append.mpr ⟨ihl hp.1 _ _, ihr hp.2.1 _ _, ?_⟩
      intro s hs t ht
      obtain ⟨k, b, hs, hbyte, -⟩ := first_of_mem_sites hp.1 hs
      obtain ⟨l, c, ht, -⟩ := first_of_mem_sites hp.2.1 ht
      have hk := (List.getElem?_eq_some_iff.mp hbyte).1
      omega

/-- Every clause has one site. -/
theorem length_sites (p : Phrase) (start depth : Nat) :
    (p.sites start depth).length = (p.query start).clauseCount := by
  induction p generalizing start depth with
  | comparison c => rfl
  | group before inner behind ih => rw [sites, List.length_cons, ih]; rfl
  | joined lhs before connector token behind rhs ihl ihr =>
      rw [sites, List.length_append, ihl, ihr]
      rfl

/-- Every clause takes a byte. -/
theorem clauseCount_le (p : Phrase) (start : Nat) :
    (p.query start).clauseCount ≤ p.bytes.length := by
  induction p generalizing start with
  | comparison c =>
      have hpos := List.length_pos_iff.mpr c.operator.bytes_ne_nil
      simp only [query, Query.clauseCount, bytes, ComparisonForm.bytes, List.length_append]
      omega
  | group before inner behind ih =>
      have hinner := ih (start + 1 + before)
      simp only [query, Query.clauseCount, bytes, List.length_cons, List.length_append]
      omega
  | joined lhs before connector token behind rhs ihl ihr =>
      have hlhs := ihl start
      have hrhs := ihr (start + lhs.bytes.length + before + token.length + behind)
      simp only [query, Query.clauseCount, bytes, List.length_append]
      omega

/-- No site is too deep exactly if the tree is not, from where the phrase stands. -/
theorem nesting_le_iff {p : Phrase} {start depth limit : Nat} (hdepth : depth ≤ limit) :
    (∀ s ∈ p.sites start depth, s.nesting ≤ limit) ↔
      depth + (p.query start).depth ≤ limit := by
  induction p generalizing start depth with
  | comparison c =>
      simp [sites, query, Query.depth_comparison, hdepth]
  | group before inner behind ih =>
      rw [sites, query, Query.depth_group, List.forall_mem_cons]
      constructor
      · intro h
        obtain ⟨hself, hinner⟩ := h
        have hbelow := (ih (show depth + 1 ≤ limit from hself)).mp hinner
        omega
      · intro h
        have hself : depth + 1 ≤ limit := by omega
        exact ⟨hself, (ih hself).mpr (by omega)⟩
  | joined lhs before connector token behind rhs ihl ihr =>
      rw [sites, query, Query.depth_logical, List.forall_mem_append, ihl hdepth, ihr hdepth]
      omega

end Phrase

/-- The sites of an expression that starts at offset `start`, inside `depth` groups. -/
def Expression.sites (start depth : Nat) (e : Expression) : List Site :=
  e.phrase.sites (start + e.before) depth

/-- There are no more sites than bytes. -/
theorem Expression.length_sites_le (e : Expression) (start depth : Nat) :
    (e.sites start depth).length ≤ e.bytes.length := by
  have hcount := e.phrase.clauseCount_le (start + e.before)
  rw [sites, Phrase.length_sites]
  simp only [bytes, List.length_append]
  omega

/-- **Nothing in an expression offends exactly if its tree is within the limits.** -/
theorem Expression.excess?_eq_none_iff {e : Expression} {limits : Limits} :
    Site.excess? limits 0 (e.sites 0 0) = none ↔
      (e.query 0).depth ≤ limits.depth.toNat ∧
        (e.query 0).clauseCount ≤ limits.clauses.toNat := by
  have hlength : (e.sites 0 0).length = (e.query 0).clauseCount :=
    e.phrase.length_sites (0 + e.before) 0
  have hne : e.sites 0 0 ≠ [] := by
    intro hnil
    have hpos := (e.query 0).clauseCount_pos
    rw [← hlength, hnil] at hpos
    exact absurd hpos (Nat.not_lt_zero 0)
  have hnesting : (∀ s ∈ e.sites 0 0, s.nesting ≤ limits.depth.toNat) ↔
      0 + (e.query 0).depth ≤ limits.depth.toNat :=
    Phrase.nesting_le_iff (Nat.zero_le _)
  rw [Site.excess?_eq_none_iff, hnesting, hlength, Nat.zero_add, Nat.zero_add]
  constructor
  · intro h
    obtain ⟨hcount, hdepth⟩ := h
    exact ⟨hdepth, hcount.resolve_left hne⟩
  · intro h
    obtain ⟨hdepth, hcount⟩ := h
    exact ⟨.inr hcount, hdepth⟩

/-- Under the greatest limits only the length of the input could offend. -/
theorem Expression.excess?_unlimited {e : Expression} (h : e.bytes.length < UInt64.size) :
    Site.excess? .unlimited 0 (e.sites 0 0) = none := by
  have hcount := e.phrase.clauseCount_le (0 + e.before)
  have hdepth := (e.phrase.query (0 + e.before)).depth_lt_clauseCount
  have hphrase : e.phrase.bytes.length ≤ e.bytes.length := by
    simp only [bytes, List.length_append]
    omega
  have hmax : (0xFFFFFFFFFFFFFFFF : UInt64).toNat = UInt64.size - 1 := rfl
  rw [Expression.excess?_eq_none_iff, Expression.query, Limits.unlimited, hmax]
  omega

end RecordFilter
