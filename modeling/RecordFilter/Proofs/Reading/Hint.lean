import RecordFilter.Proofs.Reading.Call

/-!
# What readers hint at

A reader that fails hints at what could have stood there, in words of its own.  None of the
readers of tokens hints at a clause: that is for the machine to say, where a clause has to
start.

* `Operator.hint_of_read`, `Connector.hint_of_read` — the hint of a token without parts;
* `Literal.hint_of_read`, `FunctionCall.hint_of_read` — the hints of a literal and a call.
-/

namespace RecordFilter

variable {w : Window} {e : SyntaxError} {place : Place}

/-- Where an operator is due, the operators are listed. -/
theorem Operator.hint_of_read (h : Operator.read w = .error e) :
    e.hint = Operator.validSymbols := by
  unfold Operator.read Window.failure Window.truncated at h
  grind

/-- Where a connector is due, the connectors are listed. -/
theorem Connector.hint_of_read (h : Connector.read w = .error e) :
    e.hint = Connector.validSymbols := by
  unfold Connector.read Connector.readSymbol Connector.readWord Window.failure
    Window.truncated at h
  grind

namespace Literal

/-- What the reader of literals hints at. -/
def hints : List String :=
  [Hint.value, delimiterHint, "a digit", "a number in range", quoteHint,
    "one of \\\", \\\\, \\n, \\t", "valid UTF-8 in the string"]

/-- The hint where a digit is missing is one of the list. -/
theorem hint_of_missingDigit (h : missingDigit place w = .error e) : e.hint ∈ hints := by
  unfold missingDigit at h
  split at h
  · cases h
    simp [hints]
  · cases h
    simp [hints]

theorem hint_of_fraction {start : Nat} {negative : Bool} {whole : List UInt8}
    (h : fraction place start negative whole w = .error e) : e.hint ∈ hints := by
  unfold fraction at h
  dsimp only at h
  split at h
  · exact hint_of_missingDigit h
  split at h
  · cases h
  · cases h
    simp [hints]

theorem hint_of_digits {start : Nat} {negative : Bool}
    (h : Literal.digits place start negative w = .error e) : e.hint ∈ hints := by
  unfold Literal.digits at h
  dsimp only at h
  split at h
  · exact hint_of_missingDigit h
  split at h
  · exact hint_of_fraction h
  split at h
  · cases h
  · cases h
    simp [hints]

theorem hint_of_number (h : number place w = .error e) : e.hint ∈ hints := by
  unfold number at h
  split at h
  · exact hint_of_digits h
  · exact hint_of_digits h

theorem hint_of_boolean (h : boolean place w = .error e) : e.hint ∈ hints := by
  unfold boolean at h
  dsimp only at h
  split at h
  · cases h
  split at h
  · cases h
  · cases h
    simp [hints]

theorem hint_of_body {pos : Nat} {read bytes : List UInt8}
    (h : body place pos read bytes = .error e) : e.hint ∈ hints := by
  fun_induction body place pos read bytes with
  | case1 => cases h; simp [hints]
  | case2 => cases h
  | case3 => cases h; simp [hints]
  | case4 _ _ _ _ _ _ ih => exact ih h
  | case5 => cases h; simp [hints]
  | case6 _ _ _ _ _ _ ih => exact ih h

theorem hint_of_string (h : string place w = .error e) : e.hint ∈ hints := by
  unfold string at h
  split at h
  · next hbody =>
    cases h
    exact hint_of_body hbody
  split at h
  · cases h
  · cases h
    simp [hints]

/-- The hint in a literal is one of the list, whatever its first byte is. -/
theorem hint_of_unended (h : unended place w = .error e) : e.hint ∈ hints := by
  unfold unended at h
  split at h
  · cases h
    simp [hints]
  split at h
  · exact hint_of_string h
  split at h
  · exact hint_of_number h
  split at h
  · exact hint_of_boolean h
  split at h
  · cases h
    simp [hints]
  · cases h
    simp [hints]

theorem hint_of_ended {value : Value} (h : ended place value w = .error e) :
    e.hint ∈ hints := by
  unfold ended at h
  split at h
  · cases h
  split at h
  · cases h
  split at h
  · cases h
    simp [hints]
  · cases h
    simp [hints]

/-- **What the reader of literals hints at.** -/
theorem hint_of_read (h : Literal.read place w = .error e) : e.hint ∈ hints := by
  unfold Literal.read at h
  split at h
  · next hunended =>
    cases h
    exact hint_of_unended hunended
  · exact hint_of_ended h

end Literal

namespace FunctionCall

/-- What the reader of calls hints at. -/
def hints : List String := "a function name" :: openingHint :: argumentsHint :: Literal.hints

/-- The hints of literals are among those of calls. -/
theorem hint_of_literal (h : Literal.read place w = .error e) : e.hint ∈ hints :=
  List.mem_cons_of_mem _ (List.mem_cons_of_mem _ (List.mem_cons_of_mem _
    (Literal.hint_of_read h)))

theorem hint_of_arguments {read : List Value} (h : arguments read w = .error e) :
    e.hint ∈ hints := by
  fun_induction arguments read w with
  | case1 read w error hread =>
      cases h
      exact hint_of_literal hread
  | case2 => cases h; simp [hints]
  | case3 _ _ _ _ _ _ ih => exact ih h
  | case4 => cases h
  | case5 => cases h; simp [hints]

/-- **What the reader of calls hints at.**  The letters in front of its parenthesis always
spell a name, so the hint of a name that cannot be spelled is not among them. -/
theorem hint_of_read {key : Key} (h : FunctionCall.read key w = .error e) :
    e.hint ∈ hints := by
  unfold FunctionCall.read at h
  dsimp only at h
  split at h
  · split at h
    · cases h
      simp [hints]
    · cases h
      simp [hints]
  · next hletters =>
    have hne : w.run Byte.isLetter ≠ [] := by simpa [List.isEmpty_iff] using hletters
    obtain ⟨name, -, hbytes⟩ :=
      exists_name_of_letters hne fun b hb => Window.all_of_mem_run hb
    rw [← hbytes, readName_encode] at h
    dsimp only at h
    split at h
    · cases h
      simp [hints]
    split at h
    · split at h
      · next hargs =>
        cases h
        unfold argumentList at hargs
        split at hargs
        · cases hargs
        · exact hint_of_arguments hargs
      · cases h
    · cases h
      simp [hints]

end FunctionCall

/-- No reader of tokens hints at a clause. -/
theorem Hint.clause_not_mem_hints : Hint.clause ∉ FunctionCall.hints := by
  decide

end RecordFilter
