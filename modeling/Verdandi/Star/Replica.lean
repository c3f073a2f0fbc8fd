import Verdandi.Star.Agenda
import Verdandi.Star.Stage

/-! The copy of a remote source: its records, how far they are complete, and which targets are
known to be further.
-/

namespace Astra

open Support

inductive Answer (Failure Value : Type) where
  | ok (value : Value)
  | error (failure : Failure)
  | thrown (fault : Fault)
  deriving DecidableEq, Repr

/-- One sample of the environment: the clock each time it is read, the steady clock, and the
order in which hooks of one tick are handled by each agenda.
-/
structure Moment where
  sample : Nat → Option Clock.Reading
  steady : Int := 0
  source : Nat → Origin.Name → Nat := fun _ _ => 0
  merged : Nat → Origin.Name → Nat := fun _ _ => 0
  replica : Bytes → Nat → Origin.Name → Nat := fun _ _ _ => 0

/-- `reading`: a time that may be used and does not go backwards. -/
def Clock.Reading.follows (reading : Clock.Reading) (observed : Option Int) : Bool :=
  reading.ready && 0 ≤ reading.time && observed.all (· ≤ reading.time)

namespace Replica

open Origin (Name)

structure Coverage where
  name : Name
  position : Nat
  deriving DecidableEq, Repr

/-- An installation in preparation, while which the replica is held: the Scope of a complete
state, what the replica charged, the names that it had, and the private candidate with its rows,
or the reply to give instead.
-/
structure Task (Item Failure : Type) where
  draft : Origin.Draft Item
  scope : Scope
  bytes : Nat
  previous : List Name
  prepared : Except (Answer Failure Unit) (Origin.Batch Item × List (Name × Item))

def whole (scope : Scope) : Name where
  scope
  key := []

def precise (coverage : List Coverage) (name : Name) : Option Coverage :=
  coverage.find? (·.name = name)

def covered (coverage : List Coverage) (name : Name) : Nat :=
  ((coverage.filter (·.name = whole name.scope)).map Coverage.position).foldl max
    ((precise coverage name).elim 0 Coverage.position)

def ahead (coverage : List Coverage) (position : Nat) : Bool :=
  coverage.any (·.position > position)

def pass (coverage : List Coverage) (position : Nat) : List Coverage :=
  coverage.filter (·.position > position)

def note (name : Name) (position : Nat) : List Coverage → List Coverage
  | [] => [{ name, position }]
  | first :: rest =>
      if first.name = name then
        { first with position } :: rest
      else
        first :: note name position rest

def noteWhole (scope : Scope) (position : Nat) (coverage : List Coverage) : List Coverage :=
  coverage.filter (·.name.scope ≠ scope) ++ [{ name := whole scope, position }]

end Replica

structure Replica (Item Failure : Type) where
  source : Origin Item
  agenda : Option Agenda := none
  coverage : List Replica.Coverage := []
  retired : Bool := false
  task : Option (Replica.Task Item Failure) := none

namespace Replica

variable {Item Failure : Type}

def busy (replica : Replica Item Failure) : Bool := replica.task.isSome

def spent (replica : Replica Item Failure) : Bool :=
  replica.retired && replica.agenda.all (·.hooks.keys.isEmpty)

end Replica

-- Coverage

namespace Replica

open Origin (Name)

variable {coverage : List Coverage} {name : Name} {scope : Scope} {position : Nat}

theorem le_foldl_max {values : List Nat} {least : Nat}
    : position ≤ values.foldl max least ↔ position ≤ least ∨ ∃ value ∈ values, position ≤ value := by
  induction values generalizing least with
  | nil => simp
  | cons first rest ih =>
      rw [List.foldl_cons, ih, le_max_iff, List.exists_mem_cons_iff, or_assoc]

variable {value : Coverage}

theorem precise_of_mem (distinct : (coverage.map Coverage.name).Nodup) (listed : value ∈ coverage)
    : precise coverage value.name = some value := by
  induction coverage with
  | nil => cases listed
  | cons first rest ih =>
      rw [List.map_cons, List.nodup_cons] at distinct
      rcases List.mem_cons.mp listed with rfl | later
      · simp [precise]
      · have differs : first.name ≠ value.name := by
          intro same
          exact distinct.1 (same ▸ List.mem_map_of_mem later)
        have found := ih distinct.2 later
        simp only [precise] at found
        simp [precise, differs, found]

theorem mem_of_precise (found : precise coverage name = some value)
    : value ∈ coverage ∧ value.name = name :=
  ⟨List.mem_of_find?_eq_some found, by simpa using List.find?_some found⟩

/-- A target is known as far as a position if it is marked so, itself or with its Scope. -/
theorem le_covered_iff (distinct : (coverage.map Coverage.name).Nodup) (positive : 0 < position)
    : position ≤ covered coverage name
      ↔ ∃ value ∈ coverage, (value.name = whole name.scope ∨ value.name = name)
        ∧ position ≤ value.position := by
  unfold covered
  rw [le_foldl_max]
  constructor
  · rintro (exact' | ⟨_, listed, reaches⟩)
    · cases found : precise coverage name with
      | none =>
          rw [found] at exact'
          exact absurd exact' (Nat.not_le.mpr positive)
      | some value =>
          rw [found] at exact'
          obtain ⟨listed, same⟩ := mem_of_precise found
          exact ⟨value, listed, .inr same, exact'⟩
    · obtain ⟨value, kept, rfl⟩ := List.mem_map.mp listed
      obtain ⟨listed, same⟩ := List.mem_filter.mp kept
      exact ⟨value, listed, .inl (by simpa using same), reaches⟩
  · rintro ⟨value, listed, same | rfl, reaches⟩
    · refine .inr ⟨value.position, List.mem_map_of_mem (List.mem_filter.mpr ⟨listed, ?_⟩), reaches⟩
      simpa using same
    · rw [precise_of_mem distinct listed]
      exact .inl reaches

theorem ahead_eq_false_iff
    : ahead coverage position = false ↔ ∀ value ∈ coverage, value.position ≤ position := by
  simp [ahead]

theorem mem_pass
    : value ∈ pass coverage position ↔ value ∈ coverage ∧ position < value.position := by
  simp [pass]

theorem mem_note (distinct : (coverage.map Coverage.name).Nodup)
    : value ∈ note name position coverage
      ↔ value = { name, position } ∨ (value ∈ coverage ∧ value.name ≠ name) := by
  induction coverage with
  | nil => simp [note]
  | cons first rest ih =>
      rw [List.map_cons, List.nodup_cons] at distinct
      unfold note
      split
      next same =>
        subst same
        have later : value ∈ rest → value.name ≠ first.name := by
          intro listed equal
          exact distinct.1 (equal ▸ List.mem_map_of_mem listed)
        rw [List.mem_cons, List.mem_cons]
        constructor
        · rintro (rfl | listed)
          · exact .inl rfl
          · exact .inr ⟨.inr listed, later listed⟩
        · rintro (rfl | ⟨rfl | listed, differs⟩)
          · exact .inl rfl
          · exact absurd rfl differs
          · exact .inr listed
      rename_i differs
      rw [List.mem_cons, List.mem_cons, ih distinct.2]
      constructor
      · rintro (rfl | noted | ⟨listed, other⟩)
        · exact .inr ⟨.inl rfl, differs⟩
        · exact .inl noted
        · exact .inr ⟨.inr listed, other⟩
      · rintro (noted | ⟨rfl | listed, other⟩)
        · exact .inr (.inl noted)
        · exact .inl rfl
        · exact .inr (.inr ⟨listed, other⟩)

theorem distinct_note (distinct : (coverage.map Coverage.name).Nodup)
    : ((note name position coverage).map Coverage.name).Nodup := by
  induction coverage with
  | nil => simp [note]
  | cons first rest ih =>
      have whole := distinct
      rw [List.map_cons, List.nodup_cons] at distinct
      unfold note
      split
      · exact whole
      rename_i differs
      rw [List.map_cons, List.nodup_cons]
      refine ⟨?_, ih distinct.2⟩
      intro listed
      obtain ⟨value, isValue, same⟩ := List.mem_map.mp listed
      rcases (mem_note distinct.2).mp isValue with rfl | ⟨later, _⟩
      · exact differs same.symm
      · exact distinct.1 (same ▸ List.mem_map_of_mem later)

theorem mem_noteWhole
    : value ∈ noteWhole scope position coverage ↔ (value ∈ coverage ∧ value.name.scope ≠ scope)
        ∨ value = { name := whole scope, position } := by
  simp [noteWhole]

theorem distinct_noteWhole (distinct : (coverage.map Coverage.name).Nodup)
    : ((noteWhole scope position coverage).map Coverage.name).Nodup := by
  unfold noteWhole
  rw [List.map_append, List.nodup_append]
  refine ⟨distinct.sublist (List.filter_sublist.map _), List.nodup_singleton _, ?_⟩
  intro name listed other isOther same
  obtain ⟨value, kept, rfl⟩ := List.mem_map.mp listed
  have away : value.name.scope ≠ scope := by simpa using (List.mem_filter.mp kept).2
  rw [List.map_cons, List.map_nil, List.mem_singleton] at isOther
  exact away (by rw [same, isOther]; rfl)

theorem eq_of_pos_le_iff {left right : Nat}
    (same : ∀ position, 0 < position → (position ≤ left ↔ position ≤ right))
    : left = right := by
  apply Nat.le_antisymm
  · rcases Nat.eq_zero_or_pos left with none | positive
    · omega
    · exact (same left positive).mp le_rfl
  · rcases Nat.eq_zero_or_pos right with none | positive
    · omega
    · exact (same right positive).mpr le_rfl

/-- What is passed was not beyond the position. -/
theorem covered_pass (distinct : (coverage.map Coverage.name).Nodup)
    : max position (covered (pass coverage position) name) = max position (covered coverage name)
      ∧ covered (pass coverage position) name ≤ covered coverage name := by
  have distinctPass : ((pass coverage position).map Coverage.name).Nodup :=
    distinct.sublist (List.filter_sublist.map _)
  have least : covered (pass coverage position) name ≤ covered coverage name := by
    rcases Nat.eq_zero_or_pos (covered (pass coverage position) name) with none | positive
    · omega
    · obtain ⟨value, listed, marks, reaches⟩ :=
        (le_covered_iff distinctPass positive).mp le_rfl
      exact (le_covered_iff distinct positive).mpr ⟨value, (mem_pass.mp listed).1, marks, reaches⟩
  refine ⟨Nat.le_antisymm (max_le_max_left _ least) (max_le (le_max_left _ _) ?_), least⟩
  rcases Nat.lt_or_ge position (covered coverage name) with further | within
  · refine le_max_of_le_right ?_
    obtain ⟨value, listed, marks, reaches⟩ :=
      (le_covered_iff distinct (Nat.zero_lt_of_lt further)).mp le_rfl
    exact (le_covered_iff distinctPass (Nat.zero_lt_of_lt further)).mpr
      ⟨value, mem_pass.mpr ⟨listed, further.trans_le reaches⟩, marks, reaches⟩
  · exact le_max_of_le_left within

/-- An exact repair covers its own target and no other. -/
theorem covered_note (distinct : (coverage.map Coverage.name).Nodup) (exact' : name.key ≠ [])
    (further : covered coverage name < position) (other : Name)
    : covered (note name position coverage) other
      = if other = name then position else covered coverage other := by
  have apart {scope : Scope} : name ≠ whole scope := fun same =>
    exact' (congrArg Name.key same)
  apply eq_of_pos_le_iff
  intro least positive
  rw [le_covered_iff (distinct_note distinct) positive]
  split
  next same =>
    subst same
    constructor
    · rintro ⟨value, listed, marks, reaches⟩
      rcases (mem_note distinct).mp listed with rfl | ⟨old, _⟩
      · exact reaches
      · have within : least ≤ covered coverage other :=
          (le_covered_iff distinct positive).mpr ⟨value, old, marks, reaches⟩
        exact within.trans further.le
    · intro reaches
      exact ⟨{ name := other, position }, (mem_note distinct).mpr (.inl rfl), .inr rfl, reaches⟩
  rename_i differs
  rw [le_covered_iff distinct positive]
  constructor
  · rintro ⟨value, listed, marks, reaches⟩
    rcases (mem_note distinct).mp listed with rfl | ⟨old, _⟩
    · rcases marks with same | same
      · exact absurd same apart
      · exact absurd same.symm differs
    · exact ⟨value, old, marks, reaches⟩
  · rintro ⟨value, listed, marks, reaches⟩
    refine ⟨value, (mem_note distinct).mpr (.inr ⟨listed, ?_⟩), marks, reaches⟩
    rintro same
    rcases marks with isWhole | isOther
    · exact apart (same.symm.trans isWhole)
    · exact differs (isOther.symm.trans same)

/-- An installed Scope covers all of its targets and no other. -/
theorem covered_noteWhole (distinct : (coverage.map Coverage.name).Nodup) (name : Name)
    : covered (noteWhole scope position coverage) name
      = if name.scope = scope then position else covered coverage name := by
  apply eq_of_pos_le_iff
  intro least positive
  rw [le_covered_iff (distinct_noteWhole distinct) positive]
  split
  next inside =>
    constructor
    · rintro ⟨value, listed, marks, reaches⟩
      rcases mem_noteWhole.mp listed with ⟨_, away⟩ | rfl
      · exfalso
        rcases marks with isWhole | isName
        · exact away (by rw [isWhole]; exact inside)
        · exact away (by rw [isName]; exact inside)
      · exact reaches
    · intro reaches
      exact ⟨{ name := whole scope, position }, mem_noteWhole.mpr (.inr rfl),
        .inl (congrArg whole inside.symm), reaches⟩
  rename_i outside
  rw [le_covered_iff distinct positive]
  constructor
  · rintro ⟨value, listed, marks, reaches⟩
    rcases mem_noteWhole.mp listed with ⟨old, _⟩ | rfl
    · exact ⟨value, old, marks, reaches⟩
    · exfalso
      rcases marks with isWhole | isName
      · exact outside (congrArg Name.scope isWhole).symm
      · exact outside (congrArg Name.scope isName).symm
  · rintro ⟨value, listed, marks, reaches⟩
    refine ⟨value, mem_noteWhole.mpr (.inl ⟨listed, ?_⟩), marks, reaches⟩
    rcases marks with isWhole | isName
    · rw [isWhole]
      exact outside
    · rw [isName]
      exact outside

theorem covered_le {least : Nat} (distinct : (coverage.map Coverage.name).Nodup)
    (within : ahead coverage least = false)
    : covered coverage name ≤ least := by
  rcases Nat.eq_zero_or_pos (covered coverage name) with none | positive
  · omega
  · obtain ⟨value, listed, _, reaches⟩ := (le_covered_iff distinct positive).mp le_rfl
    exact reaches.trans (ahead_eq_false_iff.mp within value listed)

theorem covered_nil : covered [] name = 0 := rfl

end Replica

def Agenda.hold (agenda : Option Agenda) (name : Origin.Name) (deadline : Option Int)
    : Option Agenda :=
  match deadline with
  | some deadline => agenda.map (·.set name deadline)
  | none => agenda.map (·.erase name)

/-- The deadlines of a source and its hooks agree; without an agenda there are none. -/
def Tied (agenda : Option Agenda) (deadlines : Origin.Name → Option Int) : Prop :=
  match agenda with
  | some agenda => agenda.Ties deadlines
  | none => ∀ name, deadlines name = none

/-- A record with a deadline finds an agenda. -/
theorem Tied.hold {agenda : Option Agenda} {deadlines : Origin.Name → Option Int}
    (tied : Tied agenda deadlines) {name : Origin.Name} {deadline : Option Int}
    (opened : deadline.isSome = true → agenda.isSome = true)
    : Tied (Agenda.hold agenda name deadline) (Function.update deadlines name deadline) := by
  cases agenda with
  | some agenda =>
      cases deadline with
      | some deadline => exact Agenda.Ties.set tied name deadline
      | none => exact Agenda.Ties.erase tied name
  | none =>
      cases deadline with
      | some deadline => exact absurd (opened rfl) Bool.false_ne_true
      | none =>
          intro other
          rw [Function.update_apply]
          split
          · rfl
          · exact tied other

theorem Agenda.isSome_hold (agenda : Option Agenda) (name : Origin.Name) (deadline : Option Int)
    : (Agenda.hold agenda name deadline).isSome = agenda.isSome := by
  cases deadline <;> simp [Agenda.hold]

/-- Records and their hooks change together, one after the other. -/
theorem Tied.holds {agenda : Option Agenda} {deadlines : Origin.Name → Option Int} {Row : Type}
    {rows : List Row} {name : Row → Origin.Name} {deadline : Row → Option Int}
    (tied : Tied agenda deadlines)
    (opened : ∀ row ∈ rows, (deadline row).isSome = true → agenda.isSome = true)
    : Tied (rows.foldl (fun agenda row => Agenda.hold agenda (name row) (deadline row)) agenda)
        (rows.foldl (fun deadlines row => Function.update deadlines (name row) (deadline row))
          deadlines) := by
  induction rows generalizing agenda deadlines with
  | nil => exact tied
  | cons first rest ih =>
      refine ih (tied.hold (opened first List.mem_cons_self)) fun row listed lasting => ?_
      rw [Agenda.isSome_hold]
      exact opened row (List.mem_cons_of_mem _ listed) lasting

theorem Agenda.isSome_holds {Row : Type} {rows : List Row} {name : Row → Origin.Name}
    {deadline : Row → Option Int} (agenda : Option Agenda)
    : (rows.foldl (fun agenda row => Agenda.hold agenda (name row) (deadline row)) agenda).isSome
      = agenda.isSome := by
  induction rows generalizing agenda with
  | nil => rfl
  | cons first rest ih => rw [List.foldl_cons, ih, Agenda.isSome_hold]

/-- An agenda that was missing has nothing to do. -/
theorem Tied.opened {agenda : Option Agenda} {deadlines : Origin.Name → Option Int}
    (tied : Tied agenda deadlines) (time : Int)
    : Tied (some (agenda.getD { time })) deadlines := by
  cases agenda with
  | some agenda => exact tied
  | none => exact Agenda.ties_empty time tied

end Astra
