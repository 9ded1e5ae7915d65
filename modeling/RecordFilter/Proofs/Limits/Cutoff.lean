import RecordFilter.Proofs.Acceptance

/-!
# Where an expression is cut off

Under limits of its own an expression that the grammar derives is either read as under
the greatest limits, or refused where the first of its clauses is one too many or a group
too deep.  Where both happen at once, the number of clauses is what is reported.

* `parseWith_of_unlimited` — the tree decides whether, and the sites where.
-/

namespace RecordFilter

namespace Site

variable {limits : Limits} {begun : Nat} {s : Site} {e : SyntaxError}

/-- A site offends because it is one too many or too deep, and the first is checked
first. -/
theorem fault?_eq_some_iff :
    s.fault? limits begun = some e ↔
      (limits.clauses.toNat ≤ begun ∧
        e = ⟨.limitExceeded, s.offset, .clause, "fewer clauses (see max_clauses)"⟩) ∨
      (begun < limits.clauses.toNat ∧ limits.depth.toNat < s.nesting ∧
        e = ⟨.limitExceeded, s.offset, .group, "shallower nesting (see max_depth)"⟩) := by
  unfold fault?
  constructor
  · intro h
    split at h
    · exact .inl ⟨by omega, (Option.some.inj h).symm⟩
    split at h
    · exact .inr ⟨by omega, by omega, (Option.some.inj h).symm⟩
    · cases h
  · intro h
    rcases h with ⟨hmany, rfl⟩ | ⟨hfew, hdeep, rfl⟩
    · rw [if_pos (by omega)]
    · rw [if_neg (by omega), if_pos hdeep]

/-- The first site that offends is one too many, or too deep and not too many. -/
theorem exists_first_offence {sites : List Site} (h : excess? limits 0 sites = some e) :
    ∃ (i : Nat) (s : Site), sites[i]? = some s ∧
      (i = limits.clauses.toNat ∨ limits.depth.toNat < s.nesting) ∧
      (∀ (j : Nat) (t : Site), j < i → sites[j]? = some t →
        j ≠ limits.clauses.toNat ∧ t.nesting ≤ limits.depth.toNat) ∧
      e = if i = limits.clauses.toNat then
          ⟨.limitExceeded, s.offset, .clause, "fewer clauses (see max_clauses)"⟩
        else ⟨.limitExceeded, s.offset, .group, "shallower nesting (see max_depth)"⟩ := by
  obtain ⟨i, s, hs, hfault, hbefore⟩ := exists_fault limits h
  have hfine : ∀ (j : Nat) (t : Site), j < i → sites[j]? = some t →
      j < limits.clauses.toNat ∧ t.nesting ≤ limits.depth.toNat := by
    intro j t hj ht
    have hnone := hbefore j t hj ht
    rw [fault?_eq_none_iff] at hnone
    exact ⟨by omega, hnone.2⟩
  -- The site before the offending one is not too many, so the offending one is the next.
  have hcount : i ≤ limits.clauses.toNat := by
    cases i with
    | zero => exact Nat.zero_le _
    | succ i =>
        have hi : i < sites.length := by
          have := (List.getElem?_eq_some_iff.mp hs).1
          omega
        exact (hfine i _ (Nat.lt_succ_self i) (List.getElem?_eq_getElem hi)).1
  refine ⟨i, s, hs, ?_, ?_, ?_⟩
  · rcases fault?_eq_some_iff.mp hfault with ⟨hmany, -⟩ | ⟨-, hdeep, -⟩
    · exact .inl (by omega)
    · exact .inr hdeep
  · intro j t hj ht
    obtain ⟨hfew, hshallow⟩ := hfine j t hj ht
    exact ⟨Nat.ne_of_lt hfew, hshallow⟩
  · rcases fault?_eq_some_iff.mp hfault with ⟨hmany, rfl⟩ | ⟨hfew, -, rfl⟩
    · rw [if_pos (by omega)]
    · rw [if_neg (by omega)]

end Site

/-- **The limits cut off exactly what they name.**  An input that the greatest limits
accept is accepted with the same tree if the tree is within the limits.  Otherwise it is
refused at the first of its clauses that is one too many or a group too deep. -/
theorem parseWith_of_unlimited {limits : Limits} {input : List UInt8} {q : Query}
    (hlength : input.length ≤ limits.inputLength.toNat)
    (h : parseWith .unlimited input = .ok q) :
    ((q.depth ≤ limits.depth.toNat ∧ q.clauseCount ≤ limits.clauses.toNat) →
      parseWith limits input = .ok q) ∧
    (¬(q.depth ≤ limits.depth.toNat ∧ q.clauseCount ≤ limits.clauses.toNat) →
      ∃ e : Expression, e.WellFormed ∧ e.bytes = input ∧ e.query 0 = q ∧
        ∃ (i : Nat) (s : Site), (e.sites 0 0)[i]? = some s ∧
          (i = limits.clauses.toNat ∨ limits.depth.toNat < s.nesting) ∧
          (∀ (j : Nat) (t : Site), j < i → (e.sites 0 0)[j]? = some t →
            j ≠ limits.clauses.toNat ∧ t.nesting ≤ limits.depth.toNat) ∧
          parseWith limits input = .error
            (if i = limits.clauses.toNat then
              ⟨.limitExceeded, s.offset, .clause, "fewer clauses (see max_clauses)"⟩
            else ⟨.limitExceeded, s.offset, .group, "shallower nesting (see max_depth)"⟩)) := by
  obtain ⟨e, he, rfl, rfl⟩ := derives_of_parseWith h
  have hparse := parseWith_expression he hlength
  refine ⟨?_, ?_⟩
  · intro hwithin
    rw [hparse, Expression.excess?_eq_none_iff.mpr hwithin]
    rfl
  · intro hbeyond
    obtain ⟨error, herror⟩ := Option.ne_none_iff_exists'.mp
      (mt Expression.excess?_eq_none_iff.mp hbeyond)
    obtain ⟨i, s, hs, hoffends, hbefore, rfl⟩ := Site.exists_first_offence herror
    refine ⟨e, he, rfl, rfl, i, s, hs, hoffends, hbefore, ?_⟩
    rw [hparse, herror]
    rfl

/-- The group and the comparison of `(a==1)` are two clauses, one inside the other: two may
be read, but not only one. -/
theorem parseWith_of_unlimited_group :
    (Utf8.encode "(a==1)").length ≤ (⟨6, 1, 2⟩ : Limits).inputLength.toNat ∧
      parseWith .unlimited (Utf8.encode "(a==1)") =
        .ok (.group (.comparison ⟨.key ⟨"a", ⟨1, 2⟩⟩, .equals, .integer 1⟩)) ∧
      parseWith ⟨6, 1, 2⟩ (Utf8.encode "(a==1)") =
        .ok (.group (.comparison ⟨.key ⟨"a", ⟨1, 2⟩⟩, .equals, .integer 1⟩)) ∧
      ∃ e, parseWith ⟨6, 1, 1⟩ (Utf8.encode "(a==1)") = .error e ∧
        e.violation = .limitExceeded := by
  have hlength : (Utf8.encode "(a==1)").length ≤ (⟨6, 1, 2⟩ : Limits).inputLength.toNat := by
    decide
  have hunlimited : parseWith .unlimited Expression.smallGroup.bytes = _ :=
    parseWith_expression Expression.smallGroup_wellFormed (by decide)
  rw [Expression.excess?_unlimited (by decide)] at hunlimited
  refine ⟨hlength, hunlimited, (parseWith_of_unlimited hlength hunlimited).1 ⟨?_, by decide⟩, ?_⟩
  · rw [Query.depth_eq_nesting]
    decide
  · obtain ⟨_, _, _, _, i, _, _, _, _, herror⟩ :=
      (@parseWith_of_unlimited ⟨6, 1, 1⟩ _ _ hlength hunlimited).2
        fun hwithin => absurd hwithin.2 (by decide)
    refine ⟨_, herror, ?_⟩
    split
    · rfl
    · rfl

end RecordFilter
