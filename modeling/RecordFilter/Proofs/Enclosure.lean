import RecordFilter.Proofs.Acceptance
import RecordFilter.Proofs.Respacing.Machine

/-!
# Groups and their contents

To read a group is to read its contents.  Where the closing parenthesis at the end is the
partner of the opening one in front, the machine inside the group does what a machine does
that has the contents as its whole input: one byte further on, one group deeper, and with
one clause begun.  Under limits that leave room for just that, the two come to the same.

* `ClosesLast.balanced` — what stands between such parentheses is balanced;
* `parseWith_enclose` — what is read from a group, whatever its contents are.
-/

namespace RecordFilter

open Grouping

/-- Bytes in parentheses. -/
def enclose (content : List UInt8) : List UInt8 :=
  Byte.openParen :: (content ++ [Byte.closeParen])

theorem length_enclose (content : List UInt8) :
    (enclose content).length = content.length + 2 := by
  simp [enclose]

namespace Grouping

variable {content : List UInt8}

/-- The counter comes back to zero behind the last byte, and not before. -/
structure ClosesLast (bytes : List UInt8) : Prop where
  level : balance bytes = 0
  first : ∀ j, 0 < j → j < bytes.length → balance (bytes.take j) ≠ 0

/-- A counter that goes down by one at most stays up as long as it is not zero. -/
theorem ClosesLast.nonneg (h : ClosesLast (enclose content)) {j : Nat}
    (hj : j ≤ content.length) : 0 ≤ balance (content.take j) := by
  induction j with
  | zero => exact Int.le_refl 0
  | succ j ih =>
      have hup := ih (Nat.le_of_succ_le hj)
      have hstep := neg_one_le_weight (quotingFrom .outside (content.take j)) content[j]
      have hne := h.first (j + 1 + 1) (Nat.succ_pos _) (by rw [length_enclose]; omega)
      rw [enclose, List.take_succ_cons, List.take_append_of_le_length hj, balance_open,
        balance_take_succ hj] at hne
      rw [balance_take_succ hj]
      omega

/-- What stands between parentheses of which the last closes the first is balanced. -/
theorem ClosesLast.balanced (h : ClosesLast (enclose content)) : Balanced content := by
  have hup := h.nonneg (Nat.le_refl content.length)
  have hlevel := h.level
  rw [List.take_length] at hup
  have hlast : balance (content ++ [Byte.closeParen]) =
      balance content + weight (quotingFrom .outside content) Byte.closeParen := by
    rw [balance, balanceFrom_append, balanceFrom, balanceFrom, Int.add_zero]
    rfl
  rw [enclose, balance_open, hlast] at hlevel
  -- Inside a string the last byte would close nothing.
  have houtside : quotingFrom .outside content = .outside := by
    refine Decidable.byContradiction fun hinside => ?_
    rw [weight, if_neg hinside] at hlevel
    omega
  rw [houtside, weight_close] at hlevel
  refine ⟨houtside, by omega, ?_⟩
  intro j
  by_cases hj : j ≤ content.length
  · exact h.nonneg hj
  · rw [List.take_of_length_le (by omega)]
    exact hup

end Grouping

namespace Limits

variable {limits : Limits}

/-- Limits that leave room for one group more. -/
def raised (limits : Limits) : Limits :=
  ⟨limits.inputLength + 2, limits.depth + 1, limits.clauses + 1⟩

/-- No limit is so great that it cannot be raised. -/
structure Raisable (limits : Limits) : Prop where
  inputLength : limits.inputLength.toNat + 2 < UInt64.size
  depth : limits.depth.toNat + 1 < UInt64.size
  clauses : limits.clauses.toNat + 1 < UInt64.size

/-- There is room for two more bytes. -/
theorem Raisable.inputLength_raised (h : limits.Raisable) :
    limits.raised.inputLength.toNat = limits.inputLength.toNat + 2 :=
  (UInt64.toNat_add _ _).trans (Nat.mod_eq_of_lt h.inputLength)

/-- There is room for one more group around the others. -/
theorem Raisable.depth_raised (h : limits.Raisable) :
    limits.raised.depth.toNat = limits.depth.toNat + 1 :=
  (UInt64.toNat_add _ _).trans (Nat.mod_eq_of_lt h.depth)

/-- There is room for one more clause. -/
theorem Raisable.clauses_raised (h : limits.Raisable) :
    limits.raised.clauses.toNat = limits.clauses.toNat + 1 :=
  (UInt64.toNat_add _ _).trans (Nat.mod_eq_of_lt h.clauses)

/-- The raised limits are hit by the enclosed input where the others are hit by its contents. -/
theorem Raisable.matches_raised (h : limits.Raisable) (bound : Nat) :
    limits.Matches limits.raised bound 1 1 := by
  refine ⟨fun n _ => ?_, fun n _ => ?_⟩
  · rw [h.clauses_raised]
    exact Nat.succ_lt_succ_iff.symm
  · rw [h.depth_raised]
    exact Nat.succ_lt_succ_iff.symm

/-- There is room for a group that is the first clause. -/
theorem Raisable.fault?_raised (h : limits.Raisable) (offset : Nat) :
    Site.fault? limits.raised 0 ⟨offset, 1⟩ = none := by
  rw [Site.fault?, h.clauses_raised, h.depth_raised, if_neg (Nat.not_lt.mpr (Nat.le_add_left _ _)),
    if_neg (Nat.not_lt.mpr (Nat.le_add_left _ _))]

end Limits

/-- A group that is all there is comes to what its contents come to. -/
theorem readWindow_enclose {limits : Limits} {content : List UInt8}
    (hcontent : Balanced content) (hroom : Site.fault? limits 0 ⟨0, 1⟩ = none) :
    Machine.readWindow limits 0 ⟨0, enclose content⟩ 0 =
      (Machine.readWindow limits 1 ⟨1, content⟩ 1).map fun r => (.group r.1, r.2) := by
  have htakes : Window.Takes ⟨0, enclose content⟩ (enclose content)
      ⟨(enclose content).length, []⟩ :=
    ⟨(List.append_nil _).symm, (Nat.zero_add _).symm⟩
  have hstart : Machine.start ⟨0, enclose content⟩ 0 =
      ⟨⟨0, enclose content⟩, .start, .empty, 0⟩ := rfl
  rw [Machine.readWindow, hstart, Machine.run_group rfl htakes hcontent]
  dsimp only
  rw [Nat.zero_add, hroom]
  dsimp only [Option.elim_none]
  cases Machine.readWindow limits 1 ⟨1, content⟩ 1 with
  | error e => rfl
  | ok r => exact Machine.run_of_atEnd rfl

/-- **To read a group is to read its contents.**  Under limits that leave room for one
group more, the tree is that of the contents as a group, and an error is that of the
contents, one byte further on. -/
theorem parseWith_enclose {limits : Limits} {content : List UInt8}
    (hcloses : ClosesLast (enclose content))
    (hlength : content.length ≤ limits.inputLength.toNat) (hlimits : limits.Raisable) :
    parseWith limits.raised (enclose content) =
      ((parseWith limits content).map fun q => .group (q.relocate (· + 1))).mapError
        (SyntaxError.relocate (· + 1)) := by
  have hfits : (enclose content).length ≤ limits.raised.inputLength.toNat := by
    rw [length_enclose, hlimits.inputLength_raised]
    exact Nat.add_le_add_right hlength 2
  have hone : Window.Respaced (· + 1) ⟨0, content⟩ ⟨1, content⟩ :=
    ⟨rfl, Respaced.of_add 1 .outside 0 content⟩
  have hlike := Machine.readWindow_respaced (hlimits.matches_raised content.length) hone
    (Nat.le_of_eq (Nat.zero_add content.length)) (Nat.le_of_eq (Nat.zero_add content.length))
  rw [parseWith_eq_readWindow hlength, parseWith_eq_readWindow hfits,
    readWindow_enclose hcloses.balanced (hlimits.fault?_raised 0)]
  rcases hlike.cases with ⟨e, hr, hr'⟩ | ⟨⟨q, count⟩, _, hr, hr', rfl⟩
  · rw [hr, hr']
    rfl
  · rw [hr, hr']
    rfl

/-- The limits that `(a==1)` needs, raised, are those that `((a==1))` needs. -/
theorem parseWith_enclose_smallGroup :
    let content := Expression.smallGroup.bytes
    let limits : Limits := ⟨6, 1, 2⟩
    ClosesLast (enclose content) ∧ content.length ≤ limits.inputLength.toNat ∧
      limits.Raisable ∧
      parseWith limits content = .ok (Expression.smallGroup.query 0) ∧
      parseWith limits.raised (enclose content) =
        .ok (.group ((Expression.smallGroup.query 0).relocate (· + 1))) := by
  intro content limits
  have hfirst : ∀ j, j < (enclose content).length → 0 < j →
      balance ((enclose content).take j) ≠ 0 := by decide
  have hcloses : ClosesLast (enclose content) := ⟨by decide, fun j h hj => hfirst j hj h⟩
  have hlength : content.length ≤ limits.inputLength.toNat := by decide
  have hlimits : limits.Raisable := ⟨by decide, by decide, by decide⟩
  have hcontent : parseWith limits content = .ok (Expression.smallGroup.query 0) :=
    parseWith_expression Expression.smallGroup_wellFormed hlength
  refine ⟨hcloses, hlength, hlimits, hcontent, ?_⟩
  rw [parseWith_enclose hcloses hlength hlimits, hcontent]
  rfl

end RecordFilter
