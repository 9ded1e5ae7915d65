import Mathlib.Data.List.Nodup
import RecordFilter.Limits.Toml
import RecordFilter.Proofs.Toml.Codec

/-!
# Limits as a document gives them

A document of assignments leaves every limit it does not name at its standard value.  Such
limits are read off the set of its assignments alone: neither their order nor the spelling
of a key or a number matters, nor on which line a zero or an unknown key stands.  All this
holds with any codec that reads documents as their grammar says.

* `Settles` — the limits that a set of assignments means;
* `ofToml_of_settles`, `ofToml_of_unknown` — assignments that are read give these limits, or
  are refused for a key that names no limit;
* `Outcome` — what comes of a document, said by its assignments;
* `ofToml_outcome` — a document has this outcome.
-/

namespace RecordFilter

theorem Limit.mem_all (limit : Limit) : limit ∈ Limit.all := by
  cases limit <;> decide

/-- The first limit with a property, in the order in which limits are checked. -/
def Limit.IsFirst (p : Limit → Prop) (limit : Limit) : Prop :=
  p limit ∧
    ∃ front back, Limit.all = front ++ limit :: back ∧ ∀ earlier ∈ front, ¬p earlier

namespace Limits

variable {as bs : List Toml.Assignment} {l : Limits} {limit : Limit} {text : List Char}

/-! ## Validity -/

/-- The first limit that is zero is found. -/
theorem firstZero?_eq_some_iff :
    l.firstZero? = some limit ↔ Limit.IsFirst (fun limit => l.get limit = 0) limit := by
  rw [firstZero?, List.find?_eq_some_iff_append, Limit.IsFirst]
  simp

/-- No limit is found exactly if none is zero. -/
theorem firstZero?_eq_none_iff : l.firstZero? = none ↔ ∀ limit, l.get limit ≠ 0 := by
  rw [firstZero?, List.find?_eq_none]
  simp [Limit.mem_all]

/-- Limits are valid if none is zero. -/
theorem validated_of_ne_zero (h : ∀ limit, l.get limit ≠ 0) : l.validated = .ok l := by
  rw [validated, validate, firstZero?_eq_none_iff.mpr h]
  rfl

/-- Limits that are not valid are refused for the first that is zero. -/
theorem validated_of_zero (h : Limit.IsFirst (fun limit => l.get limit = 0) limit) :
    l.validated = .error (.invalidLimits (limit.key ++ " is 0")) := by
  rw [validated, validate, firstZero?_eq_some_iff.mpr h]
  rfl

/-- What is passed on is valid, and is what was there. -/
theorem validate_of_validated {k : Limits} (h : l.validated = .ok k) : k.validate = .ok () := by
  rw [validated] at h
  cases hvalid : l.validate with
  | error e =>
      rw [hvalid] at h
      cases h
  | ok u =>
      rw [hvalid] at h
      obtain rfl := Except.ok.inj h
      exact hvalid

/-! ## Reading -/

/-- The limits `l` are what these assignments mean: a limit is what is assigned to it, and
the standard value where nothing is. -/
structure Settles (as : List Toml.Assignment) (l : Limits) : Prop where
  given : ∀ limit value, ⟨limit.key, value⟩ ∈ as → (l.get limit).toNat = value
  missing : ∀ limit, (∀ value, ⟨limit.key, value⟩ ∉ as) → l.get limit = standard.get limit

/-- Every key names a limit. -/
def Known (as : List Toml.Assignment) : Prop :=
  ∀ a ∈ as, ∃ limit : Limit, a.key = limit.key

/-- Each limit is looked up as the assignments settle it. -/
theorem assigned?_of_settles (h : Settles as l) (limit : Limit) :
    assigned? as limit = some (l.get limit) := by
  rw [assigned?]
  cases hfind : as.find? fun a => a.key == limit.key with
  | none =>
      have hmissing : ∀ value, ⟨limit.key, value⟩ ∉ as := by
        intro value hmem
        have hne := List.find?_eq_none.mp hfind _ hmem
        simp at hne
      exact congrArg some (h.missing limit hmissing).symm
  | some a =>
      have hkey : a.key = limit.key := by simpa using List.find?_some hfind
      have hmem : ⟨limit.key, a.value⟩ ∈ as := by
        rw [← hkey]
        exact List.mem_of_find?_eq_some hfind
      have hvalue := h.given limit a.value hmem
      have hfits : a.value < UInt64.size := by
        rw [← hvalue]
        exact (l.get limit).toNat_lt_size
      simp only [if_pos hfits]
      rw [← hvalue, UInt64.ofNat_toNat]

/-- The check of the keys says that every key names a limit. -/
theorem all_keys_iff :
    (as.all fun a => Limit.all.any fun limit => a.key == limit.key) = true ↔ Known as := by
  have hany : ∀ key : String,
      (Limit.all.any fun limit => key == limit.key) = true ↔ ∃ limit : Limit, key = limit.key := by
    intro key
    rw [List.any_eq_true]
    constructor
    · rintro ⟨limit, -, hkey⟩
      exact ⟨limit, beq_iff_eq.mp hkey⟩
    · rintro ⟨limit, hkey⟩
      exact ⟨limit, limit.mem_all, beq_iff_eq.mpr hkey⟩
  simp only [List.all_eq_true, hany, Known]

/-- **What is read are the limits that the assignments mean**, if they are valid. -/
theorem ofToml_of_settles {toml : Toml.Codec} {document : String}
    (hread : toml.read? document = some as) (hknown : Known as) (h : Settles as l) :
    ofToml document = l.validated := by
  have hlimits : ofAssignments? as = some l := by
    rw [ofAssignments?, if_pos (all_keys_iff.mpr hknown)]
    simp only [assigned?_of_settles h]
    rfl
  rw [ofToml, hread, Option.bind_some, hlimits]

/-- **A key that names no limit is refused**, whatever else is assigned. -/
theorem ofToml_of_unknown {toml : Toml.Codec} {document : String}
    (hread : toml.read? document = some as) (hunknown : ¬Known as) :
    ofToml document = .error (.unreadableLimits "failed to parse config") := by
  have hlimits : ofAssignments? as = none := by
    rw [ofAssignments?, if_neg fun hall => hunknown (all_keys_iff.mp hall)]
  rw [ofToml, hread, Option.bind_some, hlimits]

/-- What a limit is set to, if it is not set twice and the value fits. -/
theorem exists_setting (hdistinct : (as.map Toml.Assignment.key).Nodup)
    (hfits : ∀ a ∈ as, a.value < UInt64.size) (limit : Limit) :
    ∃ n : UInt64, (∀ value, ⟨limit.key, value⟩ ∈ as → n.toNat = value) ∧
      ((∀ value, ⟨limit.key, value⟩ ∉ as) → n = standard.get limit) := by
  by_cases hgiven : ∃ value, ⟨limit.key, value⟩ ∈ as
  · obtain ⟨value, hmem⟩ := hgiven
    refine ⟨UInt64.ofNat value, ?_, fun hmissing => absurd hmem (hmissing value)⟩
    intro other hother
    have hsame := List.inj_on_of_nodup_map hdistinct hother hmem rfl
    rw [(Toml.Assignment.mk.inj hsame).2]
    exact UInt64.toNat_ofNat_of_lt (hfits _ hmem)
  · refine ⟨standard.get limit, ?_, fun _ => rfl⟩
    intro value hmem
    exact absurd ⟨value, hmem⟩ hgiven

/-- Assignments that fit and do not contradict each other mean some limits. -/
theorem exists_settles (hdistinct : (as.map Toml.Assignment.key).Nodup)
    (hfits : ∀ a ∈ as, a.value < UInt64.size) : ∃ l, Settles as l := by
  have hsetting := exists_setting hdistinct hfits
  obtain ⟨inputLength, hinputLength⟩ := hsetting .inputLength
  obtain ⟨depth, hdepth⟩ := hsetting .depth
  obtain ⟨clauses, hclauses⟩ := hsetting .clauses
  refine ⟨⟨inputLength, depth, clauses⟩, ?_, ?_⟩
  · intro limit
    cases limit with
    | inputLength => exact hinputLength.1
    | depth => exact hdepth.1
    | clauses => exact hclauses.1
  · intro limit
    cases limit with
    | inputLength => exact hinputLength.2
    | depth => exact hdepth.2
    | clauses => exact hclauses.2

/-! ## Outcomes -/

/-- A limit is zero exactly if it is given as zero, since no standard value is. -/
theorem get_eq_zero_iff (h : Settles as l) (limit : Limit) :
    l.get limit = 0 ↔ ⟨limit.key, 0⟩ ∈ as := by
  constructor
  · intro hzero
    by_cases hgiven : ∃ value, ⟨limit.key, value⟩ ∈ as
    · obtain ⟨value, hmem⟩ := hgiven
      have hvalue := h.given limit value hmem
      rw [hzero] at hvalue
      rw [← hvalue] at hmem
      exact hmem
    · have hstandard := h.missing limit fun value hmem => hgiven ⟨value, hmem⟩
      rw [hzero] at hstandard
      cases limit <;> exact absurd hstandard (by decide)
  · intro hmem
    exact UInt64.toNat_inj.mp (h.given limit 0 hmem)

/-- What comes of a document with these assignments. -/
inductive Outcome (as : List Toml.Assignment) : Except Error Limits → Prop
  /-- A key names no limit. -/
  | unknown (hunknown : ¬Known as) :
      Outcome as (.error (.unreadableLimits "failed to parse config"))
  /-- A limit is given as zero, and no earlier one is. -/
  | zero {limit : Limit} (hknown : Known as)
      (hzero : Limit.IsFirst (fun limit => ⟨limit.key, 0⟩ ∈ as) limit) :
      Outcome as (.error (.invalidLimits (limit.key ++ " is 0")))
  /-- The standard limits with those replaced that are given. -/
  | limits {l : Limits} (hknown : Known as) (hpositive : ∀ limit : Limit, ⟨limit.key, 0⟩ ∉ as)
      (hsettles : Settles as l) : Outcome as (.ok l)

/-- What assignments mean has their outcome once it is checked. -/
theorem outcome_validated (hknown : Known as) (h : Settles as l) : Outcome as l.validated := by
  cases hzero : l.firstZero? with
  | none =>
      have hpositive := firstZero?_eq_none_iff.mp hzero
      rw [validated_of_ne_zero hpositive]
      exact .limits hknown (fun limit => mt (get_eq_zero_iff h limit).mpr (hpositive limit)) h
  | some limit =>
      have hfirst := firstZero?_eq_some_iff.mp hzero
      rw [validated_of_zero hfirst]
      simp only [get_eq_zero_iff h] at hfirst
      exact .zero hknown hfirst

/-- Whether all keys are known is a matter of the set of assignments. -/
theorem Known.of_mem_iff (h : Known as) (hsame : ∀ a, a ∈ bs ↔ a ∈ as) : Known bs :=
  fun a ha => h a ((hsame a).mp ha)

/-- What assignments mean is a matter of their set. -/
theorem Settles.of_mem_iff (h : Settles as l) (hsame : ∀ a, a ∈ bs ↔ a ∈ as) : Settles bs l where
  given limit value hmem := h.given limit value ((hsame _).mp hmem)
  missing limit hmissing :=
    h.missing limit fun value hmem => hmissing value ((hsame _).mpr hmem)

/-- **A document has the outcome that its assignments say**, with any codec that reads it;
limits that are read from it are valid, and any other document with the same assignments gives
the same. -/
theorem ofToml_outcome {toml : Toml.Codec} {greatest : Nat}
    (hcodec : toml.ReadsUpTo greatest) (htext : Toml.Document text as)
    (hdistinct : (as.map Toml.Assignment.key).Nodup) (hrange : ∀ a ∈ as, a.value ≤ greatest)
    (hfits : ∀ a ∈ as, a.value < UInt64.size) :
    Outcome as (ofToml (String.ofList text)) ∧
      (∀ l, ofToml (String.ofList text) = .ok l → l.validate = .ok ()) ∧
      ∀ other bs, Toml.Document other bs → (bs.map Toml.Assignment.key).Nodup →
        (∀ a, a ∈ bs ↔ a ∈ as) →
        ofToml (String.ofList other) = ofToml (String.ofList text) := by
  have hread := hcodec text as htext hdistinct hrange
  have hothers : ∀ other bs, Toml.Document other bs → (bs.map Toml.Assignment.key).Nodup →
      (∀ a, a ∈ bs ↔ a ∈ as) → toml.read? (String.ofList other) = some bs :=
    fun other bs hother hdistinct' hsame =>
      hcodec other bs hother hdistinct' fun a ha => hrange a ((hsame a).mp ha)
  obtain ⟨l, hl⟩ := exists_settles hdistinct hfits
  by_cases hknown : Known as
  · have hlimits := ofToml_of_settles hread hknown hl
    refine ⟨?_, ?_, ?_⟩
    · rw [hlimits]
      exact outcome_validated hknown hl
    · intro k hk
      exact validate_of_validated (hlimits.symm.trans hk)
    · intro other bs hother hdistinct' hsame
      rw [hlimits]
      exact ofToml_of_settles (hothers other bs hother hdistinct' hsame)
        (hknown.of_mem_iff hsame) (hl.of_mem_iff hsame)
  · have hrefused := ofToml_of_unknown hread hknown
    refine ⟨?_, ?_, ?_⟩
    · rw [hrefused]
      exact .unknown hknown
    · intro k hk
      rw [hrefused] at hk
      cases hk
    · intro other bs hother hdistinct' hsame
      rw [hrefused]
      refine ofToml_of_unknown (hothers other bs hother hdistinct' hsame) fun hknown' => ?_
      exact hknown (hknown'.of_mem_iff fun a => (hsame a).symm)

/-- A quoted key, a hexadecimal number, a comment, and an order that is not the standard one. -/
theorem ofToml_outcome_layouts :
    Outcome [⟨"max_clauses", 16⟩, ⟨"max_depth", 0⟩]
      (ofToml "'max_clauses' = 0x1_0 # few\r\n\nmax_depth=-0") := by
  have hclauses : Toml.Line "'max_clauses' = 0x1_0 # few".toList [⟨"max_clauses", 16⟩] := by
    have hkey : Toml.Key _ "max_clauses".toList := .literal (by simp [Toml.isPlain])
    have hone : Toml.IsDigit 16 '1' 1 := by
      unfold Toml.IsDigit
      decide
    have hzero : Toml.IsDigit 16 '0' 0 := by
      unfold Toml.IsDigit
      decide
    have hnumber := Toml.Integer.hexadecimal (.spaced (.one hone) hzero)
    have hremark : Toml.IsRemark "# few".toList :=
      .inr ⟨" few".toList, rfl, List.all_eq_true.mp rfl⟩
    exact .assignment .nil hkey .space .space hnumber .space hremark
  have hdepth : Toml.Line "max_depth=-0".toList [⟨"max_depth", 0⟩] := by
    have hkey : Toml.Key "max_depth".toList _ := .bare (by decide) (List.all_eq_true.mp rfl)
    exact .assignment .nil hkey .nil .nil .minusZero .nil (.inl rfl)
  have hempty : Toml.Line [] [] := .empty .nil (.inl rfl)
  have htext := Toml.Document.more hclauses (.inr rfl)
    (.more hempty (.inl rfl) (.last hdepth))
  exact (ofToml_outcome Toml.Codec.upTo_readsUpTo htext (by decide) (by decide) (by decide)).1

end Limits

end RecordFilter
