import RecordFilter.Proofs.Acceptance
import RecordFilter.Proofs.Grouping.Balance
import RecordFilter.Proofs.Respacing.Machine

/-!
# Runs of blanks

How many blanks stand in a run makes no difference, in accepted inputs and in rejected
ones.  `squeeze` cuts every run of blanks outside of strings to a single blank, and `place`
tells where an offset goes.  Both inputs are read to the same tree or to the same error,
with every offset at its place.

* `squeeze_run`, `squeeze_eq_self` — a run becomes one blank, and nothing else changes;
* `place_run`, `place_length`, `getElem?_squeeze_place` — what is found at the place of an
  offset;
* `parseWith_squeeze` — what is read from the two inputs.
-/

namespace RecordFilter

open Grouping

variable {quoting : Quoting} {b : UInt8} {s t : List UInt8}

/-! ## Cutting runs to one blank -/

/-- A blank outside of strings with another blank right behind it. -/
def Redundant (quoting : Quoting) (b : UInt8) (behind : List UInt8) : Prop :=
  quoting = .outside ∧ b = Byte.space ∧ behind.head? = some Byte.space

instance (quoting : Quoting) (b : UInt8) (behind : List UInt8) :
    Decidable (Redundant quoting b behind) :=
  inferInstanceAs (Decidable (_ ∧ _ ∧ _))

/-- The bytes with one blank in place of every run of blanks outside of strings.  Of a run
its last blank stays. -/
def squeeze (quoting : Quoting) : List UInt8 → List UInt8
  | [] => []
  | b :: bytes =>
      if Redundant quoting b bytes then squeeze (quoting.next b) bytes
      else b :: squeeze (quoting.next b) bytes

/-- Where an offset has gone: the number of bytes in front of it that stay. -/
def place (quoting : Quoting) : List UInt8 → Nat → Nat
  | [], _ => 0
  | _, 0 => 0
  | b :: bytes, k + 1 =>
      (if Redundant quoting b bytes then 0 else 1) + place (quoting.next b) bytes k

/-- The first byte stays where it is. -/
theorem place_zero (quoting : Quoting) (s : List UInt8) : place quoting s 0 = 0 := by
  cases s <;> rfl

/-- What follows makes a blank redundant only if it starts with a blank. -/
theorem Severed.redundant_iff (h : Severed Byte.isSpace (b :: s) t) :
    Redundant quoting b (s ++ t) ↔ Redundant quoting b s := by
  cases s with
  | cons c s => rfl
  | nil =>
      constructor
      · rintro ⟨-, rfl, hhead⟩
        cases h _ _ rfl hhead rfl
      · rintro ⟨-, -, hhead⟩
        cases hhead

/-- No run of blanks goes on from bytes that do not end in one. -/
theorem severed_of_getLast? (h : s.getLast? ≠ some Byte.space) (t : List UInt8) :
    Severed Byte.isSpace s t := by
  intro b c hb _ hspace
  exact absurd (Window.isSpace_iff.mp hspace ▸ hb) h

/-- Two parts are squeezed one by one. -/
theorem squeeze_append (h : Severed Byte.isSpace s t) :
    squeeze quoting (s ++ t) = squeeze quoting s ++ squeeze (quotingFrom quoting s) t := by
  induction s generalizing quoting with
  | nil => rfl
  | cons b s ih =>
      rw [List.cons_append, squeeze, squeeze, quotingFrom_cons, ih h.tail]
      simp only [h.redundant_iff]
      split <;> rfl

/-- What stands in the second part has gone as far as the first has become shorter. -/
theorem place_append (h : Severed Byte.isSpace s t) (k : Nat) :
    place quoting (s ++ t) (s.length + k) =
      (squeeze quoting s).length + place (quotingFrom quoting s) t k := by
  induction s generalizing quoting with
  | nil => rw [List.length_nil, Nat.zero_add, squeeze, List.length_nil, Nat.zero_add]; rfl
  | cons b s ih =>
      rw [List.cons_append, List.length_cons, Nat.add_right_comm, place, squeeze,
        quotingFrom_cons, ih h.tail]
      simp only [h.redundant_iff]
      split
      · rw [Nat.zero_add]
      · rw [List.length_cons]
        omega

/-- The end has gone to the end. -/
theorem place_length (quoting : Quoting) (s : List UInt8) :
    place quoting s s.length = (squeeze quoting s).length := by
  have hsevered : Severed Byte.isSpace s [] := fun _ _ _ hc => nomatch hc
  have hend : place quoting (s ++ []) (s.length + 0) =
      (squeeze quoting s).length + place (quotingFrom quoting s) [] 0 :=
    place_append hsevered 0
  rwa [List.append_nil] at hend

section Run

variable {front back : List UInt8} (n : Nat)

/-- **A run of blanks outside of strings becomes a single blank.** -/
theorem squeeze_run (houtside : quotingFrom .outside front = .outside)
    (hfront : front.getLast? ≠ some Byte.space) (hback : back.head? ≠ some Byte.space) :
    squeeze .outside (front ++ (List.replicate (n + 1) Byte.space ++ back)) =
      squeeze .outside front ++ Byte.space :: squeeze .outside back := by
  rw [squeeze_append (severed_of_getLast? hfront _), houtside]
  congr 1
  induction n with
  | zero =>
      rw [List.replicate_one, List.singleton_append, squeeze, if_neg fun h => hback h.2.2]
      rfl
  | succ n ih =>
      rw [List.replicate_succ, List.cons_append, squeeze, if_pos ⟨rfl, rfl, rfl⟩]
      exact ih

/-- Every offset in a run has gone to the blank that stays of it. -/
theorem place_run (houtside : quotingFrom .outside front = .outside)
    (hfront : front.getLast? ≠ some Byte.space) {k : Nat} (hk : k ≤ n) :
    place .outside (front ++ (List.replicate (n + 1) Byte.space ++ back)) (front.length + k) =
      (squeeze .outside front).length := by
  have hrun : place .outside (List.replicate (n + 1) Byte.space ++ back) k = 0 := by
    induction n generalizing k with
    | zero =>
        obtain rfl := Nat.le_zero.mp hk
        exact place_zero _ _
    | succ n ih =>
        cases k with
        | zero => exact place_zero _ _
        | succ k =>
            rw [List.replicate_succ, List.cons_append, place, if_pos ⟨rfl, rfl, rfl⟩]
            exact (Nat.zero_add _).trans (ih (Nat.le_of_succ_le_succ hk))
  rw [place_append (severed_of_getLast? hfront _), houtside, hrun, Nat.add_zero]

end Run

/-- Where no blank follows another, and inside of strings, nothing changes. -/
theorem squeeze_eq_self
    (h : ∀ front behind, s = front ++ Byte.space :: Byte.space :: behind →
      quotingFrom quoting front ≠ .outside) : squeeze quoting s = s := by
  induction s generalizing quoting with
  | nil => rfl
  | cons b s ih =>
      have hnot : ¬Redundant quoting b s := by
        rintro ⟨rfl, rfl, hhead⟩
        obtain ⟨behind, rfl⟩ := List.head?_eq_some_iff.mp hhead
        exact h [] behind rfl rfl
      rw [squeeze, if_neg hnot, ih]
      intro front behind hs
      exact h (b :: front) behind (congrArg (List.cons b) hs)

theorem length_squeeze_le (quoting : Quoting) (s : List UInt8) :
    (squeeze quoting s).length ≤ s.length := by
  induction s generalizing quoting with
  | nil => exact Nat.le_refl 0
  | cons b s ih =>
      have htail := ih (quoting.next b)
      rw [squeeze]
      split
      · exact Nat.le_succ_of_le htail
      · exact Nat.succ_le_succ htail

/-! ## The squeezed bytes beside the bytes -/

/-- Squeezed bytes differ from the bytes in their blanks only. -/
theorem respaced_squeeze {move : Nat → Nat} {pos : Nat}
    (hmove : ∀ k, k ≤ s.length → move (pos + k) = move pos + place quoting s k) :
    Respaced move quoting pos s (squeeze quoting s) := by
  induction s generalizing quoting pos with
  | nil => exact .nil quoting pos
  | cons b s ih =>
      have hone := hmove 1 (Nat.succ_le_succ (Nat.zero_le _))
      rw [place, place_zero] at hone
      have htail : ∀ k, k ≤ s.length →
          move (pos + 1 + k) = move (pos + 1) + place (quoting.next b) s k := by
        intro k hk
        have hsucc := hmove (k + 1) (Nat.succ_le_succ hk)
        rw [place] at hsucc
        rw [Nat.add_assoc pos, Nat.add_comm 1 k, hsucc, hone, Nat.add_zero, Nat.add_assoc]
      rw [squeeze]
      split
      · next hredundant =>
        rw [if_pos hredundant] at hone
        obtain ⟨rfl, rfl, hhead⟩ := hredundant
        obtain ⟨behind, rfl⟩ := List.head?_eq_some_iff.mp hhead
        exact .blank hone (ih htail)
      · next hredundant =>
        rw [if_neg hredundant] at hone
        exact .byte hone (ih htail)

/-- **The byte at an offset is found at its place.** -/
theorem getElem?_squeeze_place (quoting : Quoting) (s : List UInt8) (k : Nat) :
    (squeeze quoting s)[place quoting s k]? = s[k]? := by
  induction s generalizing quoting k with
  | nil => rfl
  | cons b s ih =>
      cases k with
      | zero =>
          have hrespaced : Respaced (place quoting (b :: s)) quoting 0 (b :: s)
              (squeeze quoting (b :: s)) := by
            refine respaced_squeeze fun k _ => ?_
            rw [place_zero, Nat.zero_add, Nat.zero_add]
          rw [place_zero, ← List.head?_eq_getElem?, ← List.head?_eq_getElem?,
            hrespaced.head?_eq]
      | succ k =>
          rw [List.getElem?_cons_succ, ← ih (quoting.next b) k, squeeze, place]
          split
          · rw [Nat.zero_add]
          · rw [Nat.add_comm, List.getElem?_cons_succ]

/-- **How many blanks stand in a run makes no difference.**  The squeezed input is read to
the same tree, each span at its place, or is refused with the same error at its place. -/
theorem parseWith_squeeze {limits : Limits} {input : List UInt8}
    (h : input.length ≤ limits.inputLength.toNat) :
    parseWith limits (squeeze .outside input) =
      ((parseWith limits input).map (Query.relocate (place .outside input))).mapError
        (SyntaxError.relocate (place .outside input)) := by
  have hlength := Nat.le_trans (length_squeeze_le .outside input) h
  have hinput : Window.Respaced (place .outside input) ⟨0, input⟩
      ⟨0, squeeze .outside input⟩ := by
    refine ⟨(place_zero .outside input).symm, respaced_squeeze fun k _ => ?_⟩
    rw [place_zero, Nat.zero_add, Nat.zero_add]
  have hlike := Machine.readWindow_respaced (limits.matches_self input.length) hinput
    (Nat.le_of_eq (Nat.zero_add input.length)) (Nat.le_of_eq (Nat.zero_add input.length))
  rw [parseWith_eq_readWindow h, parseWith_eq_readWindow hlength]
  exact hlike.map_fst

/-- The inputs `a  ==   )` and `a == )` are refused alike, at their last bytes. -/
theorem parseWith_squeeze_clipped :
    let input : List UInt8 := 0x61 :: Byte.space :: Byte.space :: Byte.equals :: Byte.equals ::
      Byte.space :: Byte.space :: Byte.space :: [Byte.closeParen]
    input.length ≤ Limits.standard.inputLength.toNat ∧
      squeeze .outside input = [0x61, Byte.space, Byte.equals, Byte.equals, Byte.space,
        Byte.closeParen] ∧
      parseWith .standard input =
        .error ⟨.unmatchedGrouping, 8, .value, Hint.value⟩ ∧
      parseWith .standard (squeeze .outside input) =
        .error ⟨.unmatchedGrouping, 5, .value, Hint.value⟩ := by
  intro input
  have hinput : parseWith .standard input =
      .error ⟨.unmatchedGrouping, 8, .value, Hint.value⟩ := by
    with_unfolding_all rfl
  have hlength : input.length ≤ Limits.standard.inputLength.toNat := by decide
  refine ⟨hlength, by decide, hinput, ?_⟩
  rw [parseWith_squeeze hlength, hinput]
  rfl

end RecordFilter
