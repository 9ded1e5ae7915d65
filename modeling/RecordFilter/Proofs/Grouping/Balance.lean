import RecordFilter.Reading.Grouping
import RecordFilter.Proofs.Window

/-!
# Balance of parentheses outside strings

The scan for a closing parenthesis is a counter that goes up and down by one.  The
balance of some bytes is how far it has gone, and where it stands with regard to strings
is their quoting.  Bytes are balanced if they leave both as they were and never take the
counter below its start.

* `closing?_of_balanced`, `balanced_of_closing?` — the scan stops exactly behind the
  balanced bytes in front of a closing parenthesis;
* `balance_of_closing?_none` — where it finds nothing, the counter stays up;
* `Balanced.not_unmatched` — balanced bytes leave no parenthesis without a partner.
-/

namespace RecordFilter.Grouping

/-- What a byte adds to the balance. -/
def weight (quoting : Quoting) (b : UInt8) : Int :=
  if quoting = .outside then
    if b = Byte.openParen then 1 else if b = Byte.closeParen then -1 else 0
  else 0

/-- Opening minus closing parentheses outside strings, from a quoting on. -/
def balanceFrom (quoting : Quoting) : List UInt8 → Int
  | [] => 0
  | b :: bytes => weight quoting b + balanceFrom (quoting.next b) bytes

/-- Where the scan stands behind some bytes. -/
def quotingFrom (quoting : Quoting) (bytes : List UInt8) : Quoting :=
  bytes.foldl Quoting.next quoting

/-- Opening minus closing parentheses outside strings. -/
def balance (bytes : List UInt8) : Int := balanceFrom .outside bytes

variable {quoting : Quoting} {s t bytes : List UInt8} {b : UInt8}

theorem quotingFrom_cons (quoting : Quoting) (b : UInt8) (bytes : List UInt8) :
    quotingFrom quoting (b :: bytes) = quotingFrom (quoting.next b) bytes := rfl

/-- Quoting goes on in a second text as the first leaves it. -/
theorem quotingFrom_append (quoting : Quoting) (s t : List UInt8) :
    quotingFrom quoting (s ++ t) = quotingFrom (quotingFrom quoting s) t :=
  List.foldl_append

/-- The balance of two texts is the sum, the second one quoted as the first leaves it. -/
theorem balanceFrom_append (quoting : Quoting) (s t : List UInt8) :
    balanceFrom quoting (s ++ t) =
      balanceFrom quoting s + balanceFrom (quotingFrom quoting s) t := by
  induction s generalizing quoting with
  | nil => simp [balanceFrom, quotingFrom]
  | cons b s ih =>
      rw [List.cons_append, balanceFrom, balanceFrom, ih, quotingFrom_cons, Int.add_assoc]

/-- Behind bytes that end outside of strings the balance goes on from where it was. -/
theorem balance_append (hs : quotingFrom .outside s = .outside) (t : List UInt8) :
    balance (s ++ t) = balance s + balance t := by
  rw [balance, balanceFrom_append, hs]
  rfl

theorem weight_open : weight .outside Byte.openParen = 1 := rfl

theorem weight_close : weight .outside Byte.closeParen = -1 := rfl

/-- All bytes but parentheses outside of strings weigh nothing. -/
theorem weight_eq_zero (hopen : ¬(quoting = .outside ∧ b = Byte.openParen))
    (hclose : ¬(quoting = .outside ∧ b = Byte.closeParen)) : weight quoting b = 0 := by
  unfold weight
  by_cases hq : quoting = .outside
  · rw [if_pos hq, if_neg fun h => hopen ⟨hq, h⟩, if_neg fun h => hclose ⟨hq, h⟩]
  · rw [if_neg hq]

/-- One byte closes one group at most. -/
theorem neg_one_le_weight (quoting : Quoting) (b : UInt8) : -1 ≤ weight quoting b := by
  unfold weight
  split
  · split
    · decide
    · split <;> decide
  · decide

/-- An opening parenthesis in front adds a group. -/
theorem balance_open (bytes : List UInt8) :
    balance (Byte.openParen :: bytes) = 1 + balance bytes := rfl

/-- One byte more moves the balance by its weight. -/
theorem balance_take_succ {j : Nat} (hj : j < bytes.length) :
    balance (bytes.take (j + 1)) =
      balance (bytes.take j) + weight (quotingFrom .outside (bytes.take j)) bytes[j] := by
  rw [List.take_succ_eq_append_getElem hj, balance, balanceFrom_append, balanceFrom,
    balanceFrom, Int.add_zero]
  rfl

/-! ## The scan -/

variable {layers offset : Nat}

theorem closingFrom?_found (offset : Nat) (bytes : List UInt8) :
    closingFrom? 1 offset .outside (Byte.closeParen :: bytes) = some offset := rfl

/-- A byte that is not the one looked for moves the counter by its weight. -/
theorem exists_level (hnot : ¬(quoting = .outside ∧ b = Byte.closeParen ∧ layers = 0)) :
    ∃ n : Nat, (layers + 1 : Int) + weight quoting b = n + 1 ∧
      ∀ offset bytes, closingFrom? (layers + 1) offset quoting (b :: bytes) =
        closingFrom? (n + 1) (offset + 1) (quoting.next b) bytes := by
  by_cases hopen : quoting = .outside ∧ b = Byte.openParen
  · obtain ⟨rfl, rfl⟩ := hopen
    refine ⟨layers + 1, ?_, fun offset bytes => rfl⟩
    rw [weight_open]
    omega
  by_cases hclose : quoting = .outside ∧ b = Byte.closeParen
  · obtain ⟨rfl, rfl⟩ := hclose
    cases layers with
    | zero => exact absurd ⟨rfl, rfl, rfl⟩ hnot
    | succ n =>
        refine ⟨n, ?_, fun offset bytes => rfl⟩
        rw [weight_close]
        omega
  · refine ⟨layers, ?_, ?_⟩
    · rw [weight_eq_zero hopen hclose]
      omega
    · intro offset bytes
      conv => lhs; unfold closingFrom?
      rw [if_neg hopen, if_neg hclose]

/-- What the scan has in front of it when it finds something. -/
theorem of_closingFrom?_eq_some {found : Nat}
    (h : closingFrom? (layers + 1) offset quoting bytes = some found) :
    ∃ i, found = offset + i ∧ bytes[i]? = some Byte.closeParen ∧
      quotingFrom quoting (bytes.take i) = .outside ∧
      (layers : Int) + balanceFrom quoting (bytes.take i) = 0 ∧
      ∀ j, j ≤ i → 0 < (layers + 1 : Int) + balanceFrom quoting (bytes.take j) := by
  induction bytes generalizing layers offset quoting with
  | nil => cases h
  | cons b bytes ih =>
      by_cases hfound : quoting = .outside ∧ b = Byte.closeParen ∧ layers = 0
      · obtain ⟨rfl, rfl, rfl⟩ := hfound
        cases h
        refine ⟨0, rfl, rfl, rfl, rfl, ?_⟩
        intro j hj
        obtain rfl := Nat.le_zero.mp hj
        simp only [List.take_zero, balanceFrom]
        omega
      · obtain ⟨n, hn, hstep⟩ := exists_level hfound
        rw [hstep] at h
        obtain ⟨i, hi, hbyte, hquoting, hlevel, habove⟩ := ih h
        refine ⟨i + 1, by omega, by simpa using hbyte, hquoting, ?_, ?_⟩
        · rw [List.take_succ_cons, balanceFrom]
          omega
        · intro j hj
          cases j with
          | zero => simp only [List.take_zero, balanceFrom]; omega
          | succ j =>
              have := habove j (by omega)
              rw [List.take_succ_cons, balanceFrom]
              omega

/-- The scan stops where the counter is about to drop below its start. -/
theorem closingFrom?_of_level {i : Nat} (hbyte : bytes[i]? = some Byte.closeParen)
    (hquoting : quotingFrom quoting (bytes.take i) = .outside)
    (hlevel : (layers : Int) + balanceFrom quoting (bytes.take i) = 0)
    (habove : ∀ j, j ≤ i → 0 < (layers + 1 : Int) + balanceFrom quoting (bytes.take j)) :
    closingFrom? (layers + 1) offset quoting bytes = some (offset + i) := by
  induction bytes generalizing layers offset quoting i with
  | nil => cases hbyte
  | cons b bytes ih =>
      cases i with
      | zero =>
          have hb : b = Byte.closeParen := by simpa using hbyte
          have hlayers : layers = 0 := by
            simp only [List.take_zero, balanceFrom] at hlevel
            omega
          have houtside : quoting = .outside := hquoting
          subst hb hlayers houtside
          exact closingFrom?_found offset bytes
      | succ i =>
          simp only [List.take_succ_cons, balanceFrom, quotingFrom_cons] at hlevel hquoting
          have hstays : ∀ j, j ≤ i → 0 < (layers + 1 : Int) + (weight quoting b +
              balanceFrom (quoting.next b) (bytes.take j)) := by
            intro j hj
            have := habove (j + 1) (by omega)
            rwa [List.take_succ_cons, balanceFrom] at this
          have hnot : ¬(quoting = .outside ∧ b = Byte.closeParen ∧ layers = 0) := by
            intro h
            obtain ⟨rfl, rfl, rfl⟩ := h
            have := hstays 0 (Nat.zero_le i)
            rw [weight_close] at this
            simp [balanceFrom] at this
          obtain ⟨n, hn, hstep⟩ := exists_level hnot
          rw [hstep, ih (by simpa using hbyte) hquoting (by omega) (by
            intro j hj
            have := hstays j hj
            omega)]
          congr 1
          omega

/-- Where the scan finds nothing the counter stays up. -/
theorem of_closingFrom?_eq_none
    (h : closingFrom? (layers + 1) offset quoting bytes = none) (j : Nat) :
    0 < (layers + 1 : Int) + balanceFrom quoting (bytes.take j) := by
  induction bytes generalizing layers offset quoting j with
  | nil => simp only [List.take_nil, balanceFrom]; omega
  | cons b bytes ih =>
      have hnot : ¬(quoting = .outside ∧ b = Byte.closeParen ∧ layers = 0) := by
        intro h
        obtain ⟨rfl, rfl, rfl⟩ := h
        cases h
      obtain ⟨n, hn, hstep⟩ := exists_level hnot
      rw [hstep] at h
      cases j with
      | zero => simp only [List.take_zero, balanceFrom]; omega
      | succ j =>
          have := ih h j
          rw [List.take_succ_cons, balanceFrom]
          omega

/-! ## Balanced bytes -/

/-- The bytes leave the counter and the quoting as they were, and never take the counter
below its start. -/
structure Balanced (bytes : List UInt8) : Prop where
  outside : quotingFrom .outside bytes = .outside
  level : balance bytes = 0
  nonneg : ∀ j, 0 ≤ balance (bytes.take j)

theorem balanced_nil : Balanced [] := by
  refine ⟨rfl, rfl, ?_⟩
  intro j
  rw [List.take_nil]
  exact Int.le_refl 0

/-- Two balanced texts are balanced, one behind the other. -/
theorem Balanced.append (hs : Balanced s) (ht : Balanced t) : Balanced (s ++ t) := by
  refine ⟨?_, ?_, ?_⟩
  · rw [quotingFrom_append, hs.outside, ht.outside]
  · rw [balance_append hs.outside, hs.level, ht.level]
    rfl
  · intro j
    rw [List.take_append]
    by_cases hj : j ≤ s.length
    · rw [Nat.sub_eq_zero_of_le hj, List.take_zero, List.append_nil]
      exact hs.nonneg j
    · rw [List.take_of_length_le (by omega), balance_append hs.outside, hs.level, Int.zero_add]
      exact ht.nonneg (j - s.length)

/-- Bytes without quotes and parentheses are balanced. -/
theorem balanced_of_plain (h : ∀ b ∈ bytes,
    b ≠ Byte.quote ∧ b ≠ Byte.openParen ∧ b ≠ Byte.closeParen) : Balanced bytes := by
  induction bytes with
  | nil => exact balanced_nil
  | cons b bytes ih =>
      obtain ⟨hquote, hopen, hclose⟩ := h b List.mem_cons_self
      have htail := ih fun c hc => h c (List.mem_cons_of_mem b hc)
      have hnext : Quoting.outside.next b = .outside := if_neg hquote
      have hweight : weight .outside b = 0 :=
        weight_eq_zero (fun h => hopen h.2) (fun h => hclose h.2)
      have hone : Balanced [b] := by
        refine ⟨hnext, ?_, ?_⟩
        · rw [balance, balanceFrom, hweight]
          rfl
        · intro j
          cases j with
          | zero => exact Int.le_refl 0
          | succ j =>
              rw [List.take_succ_cons, List.take_nil, balance, balanceFrom, hweight]
              exact Int.le_refl 0
      exact hone.append htail

/-- Balanced bytes stay balanced in parentheses. -/
theorem Balanced.parenthesize (h : Balanced s) :
    Balanced (Byte.openParen :: (s ++ [Byte.closeParen])) := by
  have hall : ∀ t, balanceFrom .outside (Byte.openParen :: t) = 1 + balanceFrom .outside t :=
    fun t => rfl
  refine ⟨?_, ?_, ?_⟩
  · rw [quotingFrom_cons, quotingFrom_append]
    show quotingFrom (quotingFrom .outside s) _ = _
    rw [h.outside]
    rfl
  · rw [balance, hall, balanceFrom_append, h.outside,
      show balanceFrom .outside s = 0 from h.level]
    rfl
  · intro j
    cases j with
    | zero => exact Int.le_refl 0
    | succ j =>
        rw [List.take_succ_cons, balance, hall, List.take_append, balanceFrom_append]
        by_cases hj : j ≤ s.length
        · have hnonneg := h.nonneg j
          unfold balance at hnonneg
          rw [Nat.sub_eq_zero_of_le hj]
          simp only [List.take_zero, balanceFrom]
          omega
        · rw [List.take_of_length_le (by omega), h.outside,
            show balanceFrom .outside s = 0 from h.level]
          obtain ⟨k, hk⟩ : ∃ k, j - s.length = k + 1 := ⟨j - s.length - 1, by omega⟩
          rw [hk, List.take_succ_cons, List.take_nil]
          decide

/-- A closing parenthesis behind balanced bytes is what the scan finds. -/
theorem closing?_of_balanced (h : Balanced s) (rest : List UInt8) :
    closing? (s ++ Byte.closeParen :: rest) = some s.length := by
  have htake : ∀ j, j ≤ s.length →
      (s ++ Byte.closeParen :: rest).take j = s.take j := by
    intro j hj
    rw [List.take_append_of_le_length hj]
  have hself := htake s.length (Nat.le_refl _)
  rw [List.take_length] at hself
  have hscan : closingFrom? (0 + 1) 0 .outside (s ++ Byte.closeParen :: rest) =
      some (0 + s.length) := by
    refine closingFrom?_of_level (by simp) ?_ ?_ fun j hj => ?_
    · rw [hself, h.outside]
    · rw [hself, show balanceFrom .outside s = 0 from h.level]
      rfl
    · have hnonneg := h.nonneg j
      unfold balance at hnonneg
      rw [htake j hj]
      omega
  rw [Nat.zero_add s.length] at hscan
  exact hscan

/-- What the scan passes over is balanced, and a closing parenthesis is behind it. -/
theorem balanced_of_closing? {i : Nat} (h : closing? bytes = some i) :
    Balanced (bytes.take i) ∧ bytes[i]? = some Byte.closeParen := by
  have hscan : closingFrom? (0 + 1) 0 .outside bytes = some i := h
  obtain ⟨k, hk, hbyte, hquoting, hlevel, habove⟩ := of_closingFrom?_eq_some hscan
  rw [Nat.zero_add] at hk
  subst hk
  refine ⟨⟨hquoting, by unfold balance; omega, ?_⟩, hbyte⟩
  intro j
  rw [List.take_take]
  have := habove (min j i) (Nat.min_le_right j i)
  unfold balance
  omega

/-- Behind an opening parenthesis that the scan does not close, the counter never comes
back to where it was. -/
theorem balance_of_closing?_none (h : closing? bytes = none) (j : Nat) :
    0 < balance ((Byte.openParen :: bytes).take (j + 1)) := by
  have hscan : closingFrom? (0 + 1) 0 .outside bytes = none := h
  have hpos := of_closingFrom?_eq_none hscan j
  rw [List.take_succ_cons, balance, balanceFrom, weight_open]
  show 0 < 1 + balanceFrom .outside (bytes.take j)
  omega

/-! ## Parentheses without a partner -/

/-- The byte at offset `k` is a parenthesis outside strings that has no partner: a closing
one behind balanced bytes, or an opening one behind which the counter stays up. -/
inductive Unmatched (bytes : List UInt8) (k : Nat) : Prop
  | closing (hbyte : bytes[k]? = some Byte.closeParen) (hbefore : Balanced (bytes.take k))
  | opening (hbyte : bytes[k]? = some Byte.openParen)
      (houtside : quotingFrom .outside (bytes.take k) = .outside)
      (hup : ∀ j, k < j → 0 < balance ((bytes.drop k).take (j - k)))

/-- A closing parenthesis in front is unmatched. -/
theorem unmatched_cons_close (bytes : List UInt8) :
    Unmatched (Byte.closeParen :: bytes) 0 :=
  .closing rfl balanced_nil

/-- A parenthesis that the scan does not close has no partner. -/
theorem unmatched_of_closing?_none (h : closing? bytes = none) :
    Unmatched (Byte.openParen :: bytes) 0 := by
  apply Unmatched.opening rfl rfl
  intro j hj
  obtain ⟨j, rfl⟩ := Nat.exists_eq_add_one_of_ne_zero (Nat.pos_iff_ne_zero.mp hj)
  exact balance_of_closing?_none h j

/-- Balanced bytes in front make no difference. -/
theorem Unmatched.append_left {k : Nat} (hs : Balanced s) (h : Unmatched t k) :
    Unmatched (s ++ t) (s.length + k) := by
  have hbyte : (s ++ t)[s.length + k]? = t[k]? := by
    rw [List.getElem?_append_right (Nat.le_add_right _ _), Nat.add_sub_cancel_left]
  have htake : (s ++ t).take (s.length + k) = s ++ t.take k := List.take_length_add_append k
  cases h with
  | closing hclose hbefore =>
      exact .closing (hbyte.trans hclose) (htake ▸ hs.append hbefore)
  | opening hopen houtside hup =>
      refine .opening (hbyte.trans hopen) ?_ ?_
      · rw [htake, quotingFrom_append, hs.outside, houtside]
      · intro j hj
        rw [List.drop_length_add_append, Nat.sub_add_eq]
        exact hup (j - s.length) (by omega)

/-- Balanced bytes have a partner for every parenthesis. -/
theorem Balanced.not_unmatched {k : Nat} (h : Balanced bytes) : ¬Unmatched bytes k := by
  intro hunmatched
  cases hunmatched with
  | closing hbyte hbefore =>
      have hnonneg := h.nonneg (k + 1)
      rw [List.take_add_one, hbyte, balance_append hbefore.outside, hbefore.level] at hnonneg
      exact absurd hnonneg (by decide)
  | opening hbyte houtside hup =>
      have hlevel := h.level
      have hnonneg := h.nonneg k
      have hpos := hup (k + (bytes.drop k).length + 1) (by omega)
      rw [List.take_of_length_le (by omega)] at hpos
      rw [← List.take_append_drop k bytes, balance_append houtside] at hlevel
      omega

end RecordFilter.Grouping
