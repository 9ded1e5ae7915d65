import RecordFilter.Proofs.Grammar.Phrase
import RecordFilter.Proofs.Grouping.Balance
import RecordFilter.Proofs.Reading.Literal
import RecordFilter.Proofs.Reading.Symbol

/-!
# Phrases are balanced

The scan for a closing parenthesis knows nothing of the grammar.  It agrees with the
readers because every token of the grammar is balanced: strings end where the scan thinks
they do, and outside of strings a parenthesis stands only around arguments and groups.

* `Value.Writes.balanced`, `Phrase.WellFormed.balanced` — literals and phrases are
  balanced.
-/

namespace RecordFilter

open Grouping

/-! ## Tokens without quotes and parentheses -/

/-- A letter is neither a quote nor a parenthesis. -/
theorem Byte.plain_of_isLetter {b : UInt8} (h : Byte.isLetter b = true) :
    b ≠ Byte.quote ∧ b ≠ Byte.openParen ∧ b ≠ Byte.closeParen :=
  ⟨ne_of_class h (by decide), ne_of_class h (by decide), ne_of_class h (by decide)⟩

/-- A digit is neither a quote nor a parenthesis. -/
theorem Byte.plain_of_isDigit {b : UInt8} (h : Byte.isDigit b = true) :
    b ≠ Byte.quote ∧ b ≠ Byte.openParen ∧ b ≠ Byte.closeParen :=
  ⟨ne_of_class h (by decide), ne_of_class h (by decide), ne_of_class h (by decide)⟩

theorem balanced_of_letters {bytes : List UInt8}
    (h : ∀ b ∈ bytes, Byte.isLetter b = true) : Balanced bytes :=
  balanced_of_plain fun b hb => Byte.plain_of_isLetter (h b hb)

theorem balanced_spaces (n : Nat) : Balanced (Byte.spaces n) := by
  apply balanced_of_plain
  intro b hb
  rw [Window.mem_spaces hb]
  decide

theorem IsDigits.balanced {digits : List UInt8} (h : IsDigits digits) : Balanced digits :=
  balanced_of_plain fun b hb => Byte.plain_of_isDigit (h.all b hb)

/-- A byte that is neither a quote nor a parenthesis is balanced. -/
theorem balanced_byte {b : UInt8} (h : b ≠ Byte.quote ∧ b ≠ Byte.openParen ∧
    b ≠ Byte.closeParen) : Balanced [b] := by
  apply balanced_of_plain
  intro c hc
  rw [List.mem_singleton.mp hc]
  exact h

/-- A sign is balanced, and so is none. -/
theorem balanced_sign (negative : Bool) : Balanced (Byte.sign negative) := by
  cases negative with
  | false => exact balanced_nil
  | true => exact balanced_byte (by decide)

theorem Operator.balanced_bytes (o : Operator) : Balanced o.bytes := by
  cases o with
  | equals | notEquals | greaterEquals | lessEquals =>
      exact (balanced_byte (by decide)).append (balanced_byte (by decide))
  | greater | less => exact balanced_byte (by decide)

/-- A connector is balanced, as a symbol and as a word. -/
theorem Connector.Writes.balanced {c : Connector} {token : List UInt8}
    (h : c.Writes token) : Balanced token := by
  rcases h with rfl | hword
  · cases c <;> exact (balanced_byte (by decide)).append (balanced_byte (by decide))
  · exact balanced_of_letters (Byte.isLetter_of_spells hword c.isLetter_word)

/-! ## Strings -/

/-- Inside a string the counter rests, and the closing quote is the end of the string. -/
theorem Quoted.Sealed.silent {body : List UInt8} (h : Quoted.Sealed body) :
    quotingFrom .inside (body ++ [Byte.quote]) = .outside ∧
      ∀ j, balanceFrom .inside ((body ++ [Byte.quote]).take j) = 0 := by
  induction h with
  | nil =>
      refine ⟨rfl, ?_⟩
      intro j
      cases j with
      | zero => rfl
      | succ j => rw [List.nil_append, List.take_succ_cons, List.take_nil]; rfl
  | @plain b body hquote hbackslash _ ih =>
      have hnext : Quoting.inside.next b = .inside := by
        rw [Quoting.next, if_neg hbackslash, if_neg hquote]
      refine ⟨?_, ?_⟩
      · rw [List.cons_append, quotingFrom_cons, hnext]
        exact ih.1
      · intro j
        cases j with
        | zero => rfl
        | succ j =>
            rw [List.cons_append, List.take_succ_cons, balanceFrom, hnext, ih.2]
            rfl
  | @escape c b body _ _ ih =>
      refine ⟨ih.1, ?_⟩
      intro j
      cases j with
      | zero => rfl
      | succ j =>
          cases j with
          | zero => rfl
          | succ j =>
              show 0 + (0 + balanceFrom .inside ((body ++ [Byte.quote]).take j)) = 0
              rw [ih.2]
              rfl

/-- A string is balanced: what stands in it does not count. -/
theorem Quoted.Writes.balanced {text : List Char} {body : List UInt8}
    (h : Quoted.Writes text body) : Balanced (Byte.quote :: (body ++ [Byte.quote])) := by
  obtain ⟨hquoting, hlevel⟩ := h.sealed.silent
  have hcons : ∀ t, balance (Byte.quote :: t) = balanceFrom .inside t :=
    fun t => Int.zero_add _
  refine ⟨hquoting, ?_, ?_⟩
  · rw [hcons, ← List.take_length (l := body ++ [Byte.quote]), hlevel]
  · intro j
    cases j with
    | zero => exact Int.le_refl 0
    | succ j =>
        rw [List.take_succ_cons, hcons]
        exact Int.le_of_eq (hlevel j).symm

/-- **A literal is balanced**, whatever stands in it. -/
theorem Value.Writes.balanced {value : Value} {literal : List UInt8}
    (h : value.Writes literal) : Balanced literal := by
  cases h with
  | integer negative hdigits _ => exact (balanced_sign negative).append hdigits.balanced
  | decimal negative hwhole hfraction _ =>
      exact (balanced_sign negative).append (hwhole.balanced.append
        ((balanced_byte (by decide)).append hfraction.balanced))
  | string hbody => exact hbody.balanced
  | true hword =>
      exact balanced_of_letters
        (Byte.isLetter_of_spells hword (List.all_eq_true.mp (by decide)))
  | false hword =>
      exact balanced_of_letters
        (Byte.isLetter_of_spells hword (List.all_eq_true.mp (by decide)))

/-! ## Phrases -/

theorem ArgumentForm.WellFormed.balanced {a : ArgumentForm} (h : a.WellFormed) :
    Balanced a.bytes :=
  ((balanced_spaces _).append (Value.Writes.balanced h)).append (balanced_spaces _)

/-- The bytes between the parentheses of a call are balanced. -/
theorem CallForm.balanced_argumentBytes (blank : Nat) {args : List ArgumentForm}
    (h : ∀ a ∈ args, a.WellFormed) : Balanced (argumentBytes blank args) := by
  cases args with
  | nil => exact balanced_spaces blank
  | cons a args =>
      apply (h a List.mem_cons_self).balanced.append
      replace h : ∀ a ∈ args, a.WellFormed := fun b hb => h b (List.mem_cons_of_mem a hb)
      induction args with
      | nil => exact balanced_nil
      | cons b args ih =>
          rw [List.flatMap_cons]
          refine Balanced.append ?_ (ih fun c hc => h c (List.mem_cons_of_mem b hc))
          exact (balanced_byte (b := Byte.comma) (by decide)).append
            (h b List.mem_cons_self).balanced

/-- A function is balanced: its two parentheses match. -/
theorem CallForm.WellFormed.balanced {c : CallForm} (h : c.WellFormed) :
    Balanced c.bytes :=
  (balanced_of_letters h.name.letters_encode).append
    (balanced_argumentBytes c.blank h.args).parenthesize

theorem SubjectForm.WellFormed.balanced {s : SubjectForm} (h : s.WellFormed) :
    Balanced s.bytes := by
  cases s with
  | key name => exact balanced_of_letters (IsName.letters_encode h)
  | call name gap function =>
      exact (balanced_of_letters h.1.letters_encode).append
        ((balanced_byte (b := Byte.dot) (by decide)).append
          ((balanced_spaces gap).append h.2.balanced))

theorem ComparisonForm.WellFormed.balanced {c : ComparisonForm} (h : c.WellFormed) :
    Balanced c.bytes :=
  (((h.subject.balanced.append (balanced_spaces _)).append
    c.operator.balanced_bytes).append (balanced_spaces _)).append h.value.balanced

/-- **A phrase is balanced.** -/
theorem Phrase.WellFormed.balanced {p : Phrase} (h : p.WellFormed) : Balanced p.bytes := by
  induction p with
  | comparison c => exact ComparisonForm.WellFormed.balanced h
  | group before inner behind ih =>
      exact (((balanced_spaces before).append (ih h)).append
        (balanced_spaces behind)).parenthesize
  | joined lhs before connector token behind rhs ihl ihr =>
      obtain ⟨hlhs, hrhs, -, htoken, -⟩ := h
      exact ((((ihl hlhs).append (balanced_spaces before)).append htoken.balanced).append
        (balanced_spaces behind)).append (ihr hrhs)

theorem Expression.WellFormed.balanced {e : Expression} (h : e.WellFormed) :
    Balanced e.bytes :=
  ((balanced_spaces _).append (Phrase.WellFormed.balanced h)).append (balanced_spaces _)

end RecordFilter
