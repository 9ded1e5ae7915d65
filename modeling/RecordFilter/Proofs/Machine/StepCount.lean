import RecordFilter.Proofs.Machine.UnderWay

/-!
# How many steps a reading takes

Every step takes bytes from the window, with one exception: behind the letters of a key a
byte may stand that belongs to what follows, and then the key ends without taking it.  The
measure `2 * unread + (1 inside a key)` pays for that step with the letter in front of it.

A group is paid for once.  The machine around it skips the contents and the closing
parenthesis; the machine of the group reads the contents, which are shorter by that
parenthesis, and so both together keep to what the step makes the measure smaller.

* `step_takes_or_ends_key` — what a step takes from the window;
* `Enters.skips` — a group is shorter than what is skipped with it;
* `stepCount_le_measure` — the steps of a run, with those inside groups, by its measure;
* `reading_never_stalls` — the steps of a whole reading.
-/

namespace RecordFilter

namespace Machine

variable {limits : Limits} {depth : Nat} {m next : Machine} {v : Window} {b : UInt8}

/-! ## What a step takes -/

/-- The byte `b` ends the letters of a key and is left to what follows. -/
def EndsKey (m : Machine) (b : UInt8) : Prop :=
  m.state.isKey = true ∧ Byte.isLetter b = false ∧ b ≠ Byte.space ∧ b ≠ Byte.dot

/-- Outside of keys a machine is worth two for each byte that is left. -/
theorem measure_of_not_isKey (h : ¬m.state.isKey = true) :
    m.measure = 2 * m.window.rest.length := by
  rw [measure, if_neg h, Nat.add_zero]

/-- Behind letters a step takes a byte, or it ends the key and takes nothing. -/
theorem continueKey_takes_or_ends {start : Nat} {letters : List UInt8}
    (hb : m.window.peek? = some b) (hstate : m.state = .key start letters)
    (h : m.continueKey start letters b = .ok next) :
    (next.window.rest.length < m.window.rest.length ∧ ¬m.EndsKey b) ∨
      (m.EndsKey b ∧ next.window = m.window ∧ ∃ key, next.state = .subject (.key key)) := by
  have hkey : m.state.isKey = true := by rw [hstate]; rfl
  have hpos := Window.length_pos_of_peek? hb
  have hskip := m.window.length_skip 1
  have hspaces := (m.window.skip 1).length_skipSpaces_le
  unfold continueKey at h
  split at h
  · next hletter =>
    cases h
    refine .inl ⟨by dsimp only; omega, ?_⟩
    intro hends
    rw [hends.2.1] at hletter
    cases hletter
  · next hletter =>
    split at h
    · cases h
    split at h
    · next hspace =>
      cases h
      exact .inl ⟨by dsimp only; omega, fun hends => hends.2.2.1 hspace⟩
    · next hspace =>
      split at h
      · next hdot =>
        cases h
        exact .inl ⟨by dsimp only; omega, fun hends => hends.2.2.2 hdot⟩
      · next hdot =>
        cases h
        exact .inr ⟨⟨hkey, Bool.not_eq_true _ ▸ hletter, hspace, hdot⟩, rfl, _, rfl⟩

/-- **What a step takes from the window**: at least a byte, unless it ends a key in front of
a byte that belongs to what follows. -/
theorem step_takes_or_ends_key (hb : m.window.peek? = some b)
    (h : m.step limits depth b = .ok next) :
    (next.window.rest.length < m.window.rest.length ∧ ¬m.EndsKey b) ∨
      (m.EndsKey b ∧ next.window = m.window ∧ ∃ key, next.state = .subject (.key key)) := by
  by_cases hkey : m.state.isKey = true
  · cases hstate : m.state with
    | key start letters => exact continueKey_takes_or_ends hb hstate (step_key hstate ▸ h)
    | _ =>
        rw [hstate] at hkey
        cases hkey
  · -- Outside a key the measure is twice what is unread, so it is the window that shrinks.
    have hlt := measure_step_lt limits hb h
    have hle : 2 * next.window.rest.length ≤ next.measure := Nat.le_add_right _ _
    rw [measure_of_not_isKey hkey] at hlt
    exact .inl ⟨by omega, fun hends => hkey hends.1⟩

/-- **A group is shorter than what is skipped with it**, and behind it the machine is between
clauses. -/
theorem Enters.skips (hv : m.Enters limits depth v) (h : m.step limits depth b = .ok next) :
    v.rest.length + next.window.rest.length < m.window.rest.length ∧
      next.state = .connector := by
  obtain ⟨opening, inside, hstate, hdepth, hclosing, rfl⟩ := hv
  have hlt := Grouping.closing?_lt hclosing
  have hskip := m.window.length_skip (inside + 1)
  have hspaces := (m.window.skip (inside + 1)).length_skipSpaces_le
  rw [step_group limits depth b hstate, if_neg (Nat.not_lt.mpr hdepth), hclosing] at h
  dsimp only at h
  split at h
  · cases h
  · cases h
    rw [List.length_take]
    exact ⟨by dsimp only; omega, rfl⟩

/-! ## Counting the steps -/

/-- The window that the next step hands over to the machine of a group, if it does. -/
def entered? (limits : Limits) (depth : Nat) (m : Machine) : Option Window :=
  match m.state with
  | .group _ =>
      if limits.depth.toNat < depth + 1 then none
      else (Grouping.closing? m.window.rest).map fun inside =>
        ⟨m.window.pos, m.window.rest.take inside⟩
  | _ => none

/-- The window of a group is found exactly if the machine enters it. -/
theorem entered?_eq_some_iff : m.entered? limits depth = some v ↔ m.Enters limits depth v := by
  constructor
  · intro h
    unfold entered? at h
    split at h
    · next opening hstate =>
      split at h
      · cases h
      · next hdepth =>
        obtain ⟨inside, hclosing, hwindow⟩ := Option.map_eq_some_iff.mp h
        exact ⟨opening, inside, hstate, Nat.le_of_not_lt hdepth, hclosing, hwindow.symm⟩
    · cases h
  · rintro ⟨opening, inside, hstate, hdepth, hclosing, rfl⟩
    rw [entered?, hstate]
    dsimp only
    rw [if_neg (Nat.not_lt.mpr hdepth), hclosing]
    rfl

/-- How many steps the run of a machine inside `depth` groups takes, the one that fails and
all the steps of the machines of groups included. -/
def stepCount (limits : Limits) (depth : Nat) (m : Machine) : Nat :=
  match _hb : m.window.peek? with
  | none => 0
  | some b =>
      1 +
        (match _hv : m.entered? limits depth with
          | none => 0
          | some v => stepCount limits (depth + 1) (start v m.clauses)) +
        (match _hstep : m.step limits depth b with
          | .error _ => 0
          | .ok next => stepCount limits depth next)
termination_by m.measure
decreasing_by
  · have hlt := (entered?_eq_some_iff.mp _hv).length_lt
    have hstart := measure_start_le v m.clauses
    have hle : 2 * m.window.rest.length ≤ m.measure := Nat.le_add_right _ _
    omega
  · exact measure_step_lt limits _hb _hstep

/-- **A run takes at most as many steps as its measure says.** -/
theorem stepCount_le_measure (limits : Limits) (depth : Nat) (m : Machine) :
    m.stepCount limits depth ≤ m.measure := by
  fun_induction stepCount limits depth m with
  | case1 => exact Nat.zero_le _
  | case2 depth m b hb ihInside ihBehind =>
      have hpos := Window.length_pos_of_peek? hb
      have hle : 2 * m.window.rest.length ≤ m.measure := Nat.le_add_right _ _
      split
      · split
        · omega
        · next next hstep =>
          have hlt := measure_step_lt limits hb hstep
          have hbehind := ihBehind next hstep
          omega
      · next v hv =>
        -- The group and what is behind it share the window, less a closing parenthesis.
        have henters := entered?_eq_some_iff.mp hv
        have hinside := Nat.le_trans (ihInside v hv) (measure_start_le v m.clauses)
        split
        · have hlt := henters.length_lt
          omega
        · next next hstep =>
          obtain ⟨hskips, hstate⟩ := henters.skips hstep
          have hbehind := ihBehind next hstep
          rw [measure_of_not_isKey (by rw [hstate]; decide)] at hbehind
          omega

/-- In `a==1` the operator stands right behind the key, which ends without taking a byte. -/
theorem exists_step_takes_nothing : ∃ limits input depth w m next b,
    UnderWay limits input depth w m ∧ m.window.peek? = some b ∧
      m.step limits depth b = .ok next ∧ m.state.isKey = true ∧
      (∃ key, next.state = .subject (.key key)) ∧ next.window = m.window := by
  let input := Utf8.encode "a==1"
  let key : Machine := ⟨⟨1, input.drop 1⟩, .key 0 [0x61], .empty, 1⟩
  have hkey : UnderWay .standard input 0 ⟨0, input⟩ key :=
    .step (.start (by decide)) rfl (by with_unfolding_all rfl)
  exact ⟨.standard, input, 0, _, key,
    { key with state := .subject (.key ⟨"a", ⟨0, 1⟩⟩) }, Byte.equals, hkey, rfl,
    by with_unfolding_all rfl, rfl, ⟨_, rfl⟩, rfl⟩

end Machine

/-- How many steps the reading of an input takes, in the machines of all its groups. -/
def parseStepCount (limits : Limits) (input : List UInt8) : Nat :=
  if limits.inputLength.toNat < input.length then 0
  else (Machine.start ⟨0, input⟩ 0).stepCount limits 0

/-- **No input stalls the machine.**  Every step makes the measure smaller; it takes no byte
exactly if it ends a key in front of a byte that belongs to what follows, which does happen.
The window of a group is shorter than what the machine around it skips.  So the reading of an
input takes at most twice as many steps as the input has bytes. -/
theorem reading_never_stalls :
    (∀ (limits : Limits) (depth : Nat) (m next : Machine) (b : UInt8),
      m.window.peek? = some b → m.step limits depth b = .ok next →
      next.measure < m.measure ∧ (next.window = m.window ↔ m.EndsKey b)) ∧
    (∃ limits input depth w m next b, Machine.UnderWay limits input depth w m ∧
      m.window.peek? = some b ∧ m.step limits depth b = .ok next ∧ m.state.isKey = true ∧
      (∃ key, next.state = .subject (.key key)) ∧ next.window = m.window) ∧
    (∀ (limits : Limits) (depth : Nat) (m next : Machine) (v : Window) (b : UInt8),
      m.Enters limits depth v → m.step limits depth b = .ok next →
      v.rest.length < m.window.rest.length - next.window.rest.length) ∧
    ∀ (limits : Limits) (input : List UInt8), parseStepCount limits input ≤ 2 * input.length := by
  refine ⟨?_, Machine.exists_step_takes_nothing, ?_, ?_⟩
  · intro limits depth m next b hb h
    refine ⟨Machine.measure_step_lt limits hb h, ?_⟩
    rcases Machine.step_takes_or_ends_key hb h with ⟨hlt, hends⟩ | ⟨hends, hwindow, -⟩
    · constructor
      · intro hwindow
        rw [hwindow] at hlt
        exact absurd hlt (Nat.lt_irrefl _)
      · exact fun h => absurd h hends
    · exact ⟨fun _ => hends, fun _ => hwindow⟩
  · intro limits depth m next v b hv h
    have hskips := (hv.skips h).1
    omega
  · intro limits input
    unfold parseStepCount
    split
    · exact Nat.zero_le _
    · exact Nat.le_trans (Machine.stepCount_le_measure limits 0 _)
        (Machine.measure_start_le ⟨0, input⟩ 0)

/-- Six steps read the six bytes of `(a==1)`, four of them inside the group.  One of these
ends the key, and the step around them skips five bytes. -/
theorem reading_never_stalls_smallGroup :
    let input := Utf8.encode "(a==1)"
    let group : Machine := ⟨⟨1, input.drop 1⟩, .group 0, .empty, 1⟩
    let inside : Window := ⟨1, (input.drop 1).take 4⟩
    let key : Machine := ⟨inside.skip 1, .key 1 [0x61], .empty, 2⟩
    let ended : Machine := { key with state := .subject (.key ⟨"a", ⟨1, 2⟩⟩) }
    let behind : Machine := ⟨⟨6, []⟩, .connector, ⟨some (.group (.comparison
      ⟨.key ⟨"a", ⟨1, 2⟩⟩, .equals, .integer 1⟩)), none, false⟩, 2⟩
    group.Enters .standard 0 inside ∧ group.step .standard 0 0x61 = .ok behind ∧
      inside.rest.length < group.window.rest.length - behind.window.rest.length ∧
      key.step .standard 1 Byte.equals = .ok ended ∧ ended.measure < key.measure ∧
      key.EndsKey Byte.equals ∧
      parseStepCount .standard input = 6 ∧ parseStepCount .standard input ≤ 2 * input.length := by
  intro input group inside key ended behind
  obtain ⟨hshrinks, -, hskips, hsteps⟩ := reading_never_stalls
  have henters : group.Enters .standard 0 inside := ⟨0, 4, rfl, by decide, by decide, rfl⟩
  have hgroup : group.step .standard 0 0x61 = .ok behind := by
    with_unfolding_all rfl
  have hkey : key.step .standard 1 Byte.equals = .ok ended := by
    with_unfolding_all rfl
  obtain ⟨hlt, hends⟩ := hshrinks .standard 1 key ended Byte.equals (by decide) hkey
  exact ⟨henters, hgroup, hskips _ _ _ _ _ _ henters hgroup, hkey, hlt, hends.mp rfl,
    by with_unfolding_all rfl, hsteps .standard input⟩

end RecordFilter
