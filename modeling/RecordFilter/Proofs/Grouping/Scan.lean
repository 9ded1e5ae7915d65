import RecordFilter.Proofs.Grouping.Balance

/-!
# How the scan for a closing parenthesis ends

The scan starts at an opening parenthesis with its counter at zero, and the parenthesis takes
the counter to one.  From there on the scan stops where the counter is about to be zero again,
so it never has to take one off a counter that is zero already.  `scan` keeps the two reasons
apart for which nothing is found.

* `closing?_eq_some_iff`, `closing?_eq_none_iff` — the scan finds the first place at which the
  counter is zero again;
* `scan_ne_dropped`, `scan_open_cases` — behind an opening parenthesis the counter never drops
  below zero, and the scan ends at that place or at the end of the bytes;
* `closing?_goes_on` — the counter on the way is the balance of what has been passed over.
-/

namespace RecordFilter.Grouping

variable {quoting : Quoting} {bytes : List UInt8} {layers offset c d i k : Nat}

/-! ## How a scan ends -/

/-- How a scan ends: at a closing parenthesis that brings the counter to zero, at one that would
bring it below zero, or at the end of the bytes. -/
inductive Outcome where
  | closed (offset : Nat)
  | dropped
  | unclosed
deriving DecidableEq

/-- The offset that a scan has found. -/
def Outcome.found? : Outcome → Option Nat
  | closed offset => some offset
  | dropped => none
  | unclosed => none

/-- The scan for the parenthesis that closes the last of `layers` open ones, and how it ends. -/
def scan (layers offset : Nat) (quoting : Quoting) : List UInt8 → Outcome
  | [] => .unclosed
  | b :: bytes =>
      if quoting = .outside ∧ b = Byte.openParen then
        scan (layers + 1) (offset + 1) quoting bytes
      else if quoting = .outside ∧ b = Byte.closeParen then
        match layers with
        | 0 => .dropped
        | 1 => .closed offset
        | layers + 2 => scan (layers + 1) (offset + 1) quoting bytes
      else scan layers (offset + 1) (quoting.next b) bytes

/-- Both scans find the same. -/
theorem found?_scan (layers offset : Nat) (quoting : Quoting) (bytes : List UInt8) :
    (scan layers offset quoting bytes).found? = closingFrom? layers offset quoting bytes := by
  fun_induction scan layers offset quoting bytes with
  | case1 => rfl
  | case2 layers offset quoting b bytes hopen ih =>
      conv => rhs; unfold closingFrom?
      rw [ih, if_pos hopen]
  | case3 offset quoting b bytes hopen hclose =>
      rw [closingFrom?, if_neg hopen, if_pos hclose]
      rfl
  | case4 offset quoting b bytes hopen hclose =>
      rw [closingFrom?, if_neg hopen, if_pos hclose]
      rfl
  | case5 offset quoting b bytes hopen hclose layers ih =>
      rw [ih, closingFrom?, if_neg hopen, if_pos hclose]
  | case6 layers offset quoting b bytes hopen hclose ih =>
      conv => rhs; unfold closingFrom?
      rw [ih, if_neg hopen, if_neg hclose]

/-- **As long as a parenthesis is open the counter does not drop below zero.** -/
theorem scan_ne_dropped (layers offset : Nat) (quoting : Quoting) (bytes : List UInt8) :
    scan (layers + 1) offset quoting bytes ≠ .dropped := by
  induction bytes generalizing layers offset quoting with
  | nil => exact Outcome.noConfusion
  | cons b bytes ih =>
      unfold scan
      split
      · exact ih (layers + 1) (offset + 1) quoting
      split
      · cases layers with
        | zero => exact Outcome.noConfusion
        | succ layers => exact ih layers (offset + 1) quoting
      · exact ih layers (offset + 1) (quoting.next b)

/-- From where the offsets are counted makes no difference to what is found. -/
theorem closingFrom?_add (a layers offset : Nat) (quoting : Quoting) (bytes : List UInt8) :
    closingFrom? layers (a + offset) quoting bytes =
      (closingFrom? layers offset quoting bytes).map (a + ·) := by
  fun_induction closingFrom? layers offset quoting bytes with
  | case1 => rfl
  | case2 layers offset quoting b bytes hopen ih =>
      conv => lhs; unfold closingFrom?
      rw [← ih, if_pos hopen, Nat.add_assoc]
  | case3 offset quoting b bytes hopen hclose =>
      rw [closingFrom?, if_neg hopen, if_pos hclose]
      rfl
  | case4 offset quoting b bytes hopen hclose =>
      rw [closingFrom?, if_neg hopen, if_pos hclose]
      rfl
  | case5 offset quoting b bytes hopen hclose layers ih =>
      rw [← ih, closingFrom?, if_neg hopen, if_pos hclose, Nat.add_assoc]
  | case6 layers offset quoting b bytes hopen hclose ih =>
      conv => lhs; unfold closingFrom?
      rw [← ih, if_neg hopen, if_neg hclose, Nat.add_assoc]

/-! ## Where it ends -/

/-- At offset `c` the counter is zero for the first time behind the first byte. -/
structure ClosesAt (bytes : List UInt8) (c : Nat) : Prop where
  pos : 0 < c
  lt : c < bytes.length
  level : balance (bytes.take (c + 1)) = 0
  least : ∀ j, 0 < j → j < c → balance (bytes.take (j + 1)) ≠ 0

/-- A group is closed once. -/
theorem ClosesAt.unique (hc : ClosesAt bytes c) (hd : ClosesAt bytes d) : c = d := by
  rcases Nat.lt_trichotomy c d with hlt | heq | hlt
  · exact absurd hc.level (hd.least c hc.pos hlt)
  · exact heq
  · exact absurd hd.level (hc.least d hd.pos hlt)

/-- What the scan finds is where the counter is zero. -/
theorem closesAt_of_closing? (h : closing? bytes = some i) :
    ClosesAt (Byte.openParen :: bytes) (i + 1) := by
  obtain ⟨hbalanced, hclose⟩ := balanced_of_closing? h
  have hlt := closing?_lt h
  refine ⟨Nat.succ_pos i, Nat.succ_lt_succ hlt, ?_, ?_⟩
  · rw [List.take_succ_cons, balance_open, List.take_add_one, hclose,
      balance_append hbalanced.outside, hbalanced.level]
    rfl
  · intro j hpos hj
    have hnonneg := hbalanced.nonneg j
    rw [List.take_take, Nat.min_eq_left (Nat.le_of_lt_succ hj)] at hnonneg
    rw [List.take_succ_cons, balance_open]
    omega

/-- Where the scan finds nothing the counter is never zero again. -/
theorem not_closesAt_of_closing? (h : closing? bytes = none) (c : Nat) :
    ¬ClosesAt (Byte.openParen :: bytes) c := by
  intro hc
  have hpos := balance_of_closing?_none h c
  rw [hc.level] at hpos
  exact Int.lt_irrefl 0 hpos

/-- **The scan finds the first place at which the counter is zero again.** -/
theorem closing?_eq_some_iff :
    closing? bytes = some i ↔ ClosesAt (Byte.openParen :: bytes) (i + 1) := by
  refine ⟨closesAt_of_closing?, ?_⟩
  intro hc
  cases h : closing? bytes with
  | none => exact absurd hc (not_closesAt_of_closing? h _)
  | some k => rw [Nat.succ.inj ((closesAt_of_closing? h).unique hc)]

/-- It finds nothing exactly if there is no such place. -/
theorem closing?_eq_none_iff :
    closing? bytes = none ↔ ∀ c, ¬ClosesAt (Byte.openParen :: bytes) c := by
  refine ⟨not_closesAt_of_closing?, ?_⟩
  intro hnever
  cases h : closing? bytes with
  | none => rfl
  | some k => exact absurd (closesAt_of_closing? h) (hnever _)

/-- An opening parenthesis in front, with the counter at zero, is the same as one that is
open. -/
theorem found?_scan_open (offset : Nat) (bytes : List UInt8) :
    (scan 0 offset .outside (Byte.openParen :: bytes)).found? =
      (closing? bytes).map (offset + 1 + ·) :=
  (found?_scan 1 (offset + 1) .outside bytes).trans
    (closingFrom?_add (offset + 1) 1 0 .outside bytes)

/-- **How the scan from an opening parenthesis ends.** -/
theorem scan_open_cases (offset : Nat) (bytes : List UInt8) :
    (∃ c, ClosesAt (Byte.openParen :: bytes) c ∧
      scan 0 offset .outside (Byte.openParen :: bytes) = .closed (offset + c)) ∨
    (∀ c, ¬ClosesAt (Byte.openParen :: bytes) c) ∧
      scan 0 offset .outside (Byte.openParen :: bytes) = .unclosed := by
  have hfound := found?_scan_open offset bytes
  have hkept : scan 0 offset .outside (Byte.openParen :: bytes) ≠ .dropped :=
    scan_ne_dropped 0 (offset + 1) .outside bytes
  generalize scan 0 offset .outside (Byte.openParen :: bytes) = outcome at hfound hkept ⊢
  cases hclosing : closing? bytes with
  | none =>
      rw [hclosing] at hfound
      cases outcome with
      | closed found => cases hfound
      | dropped => exact absurd rfl hkept
      | unclosed => exact .inr ⟨closing?_eq_none_iff.mp hclosing, rfl⟩
  | some i =>
      rw [hclosing] at hfound
      cases outcome with
      | closed found =>
          obtain rfl : found = offset + 1 + i := Option.some.inj hfound
          refine .inl ⟨i + 1, closesAt_of_closing? hclosing, ?_⟩
          rw [Nat.add_assoc, Nat.add_comm 1 i]
      | dropped => exact absurd rfl hkept
      | unclosed => cases hfound

/-! ## On the way -/

/-- As long as the counter stays up the scan goes on, with the counter at the balance of what
it has passed over. -/
theorem closingFrom?_goes_on
    (hup : ∀ j, j ≤ k → 0 < (layers + 1 : Int) + balanceFrom quoting (bytes.take j)) :
    ∃ n : Nat, (layers + 1 : Int) + balanceFrom quoting (bytes.take k) = n + 1 ∧
      closingFrom? (layers + 1) offset quoting bytes =
        closingFrom? (n + 1) (offset + k) (quotingFrom quoting (bytes.take k))
          (bytes.drop k) := by
  induction k generalizing layers offset quoting bytes with
  | zero => exact ⟨layers, Int.add_zero _, rfl⟩
  | succ k ih =>
      cases bytes with
      | nil => exact ⟨layers, Int.add_zero _, rfl⟩
      | cons b bytes =>
          have hfirst := hup 1 (Nat.le_add_left 1 k)
          rw [List.take_succ_cons, List.take_zero, balanceFrom, balanceFrom] at hfirst
          have hnot : ¬(quoting = .outside ∧ b = Byte.closeParen ∧ layers = 0) := by
            rintro ⟨rfl, rfl, rfl⟩
            exact absurd hfirst (by decide)
          obtain ⟨n, hn, hstep⟩ := exists_level hnot
          have hbehind : ∀ j, j ≤ k →
              0 < (n + 1 : Int) + balanceFrom (quoting.next b) (bytes.take j) := by
            intro j hj
            have hlevel := hup (j + 1) (Nat.succ_le_succ hj)
            rw [List.take_succ_cons, balanceFrom] at hlevel
            omega
          obtain ⟨l, hl, hscan⟩ := ih hbehind
          refine ⟨l, ?_, ?_⟩
          · rw [List.take_succ_cons, balanceFrom]
            omega
          · rw [hstep, hscan, Nat.add_assoc, Nat.add_comm 1 k]
            rfl

/-- **The scan on its way to the closing parenthesis.**  In front of every byte its counter
tells how many parentheses outside of strings are open. -/
theorem closing?_goes_on (h : closing? bytes = some i) (hk : k ≤ i) :
    ∃ n : Nat, balance (Byte.openParen :: bytes.take k) = n + 1 ∧
      closing? bytes =
        closingFrom? (n + 1) k (quotingFrom .outside (bytes.take k)) (bytes.drop k) := by
  have hscan : closingFrom? (0 + 1) 0 .outside bytes = some i := h
  obtain ⟨i, hi, -, -, -, habove⟩ := of_closingFrom?_eq_some hscan
  rw [Nat.zero_add] at hi
  subst hi
  obtain ⟨n, hn, hgoes⟩ := closingFrom?_goes_on fun j hj => habove j (Nat.le_trans hj hk)
  refine ⟨n, hn, hgoes.trans ?_⟩
  rw [Nat.zero_add k]

end RecordFilter.Grouping
