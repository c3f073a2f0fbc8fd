import Verdandi.Common.Clock

/-! The registrations of an Ephemeris and the rules that make candidates of them: a registration has
a fixed attribute, replaceable data, and a lease that its owner renews.
-/

namespace Astra.Ephemeris

structure Content where
  attr : Bytes
  data : Bytes
  deriving DecidableEq, Repr

def valid (uuid : Bytes) : Bool :=
  decide (uuid.length = 16) && (uuid.getD 6 0 &&& 0xf0 == 0x40) && (uuid.getD 8 0 &&& 0xc0 == 0x80)

inductive Error where
  | input
  | clock
  | ended
  | obsolete
  | conflict
  | exhausted
  deriving DecidableEq, Repr

/-- An active registration. `update` and `renewal` are the last confirmed orders, `ttl` is in
milliseconds.
-/
structure Record where
  attr : Bytes
  data : Bytes
  deadline : Int
  update : Nat := 0
  renewal : Nat := 0
  ttl : Nat
  deriving DecidableEq, Repr

/-- A candidate, whether it is a new fact, and whether subscribers see a difference. -/
structure Change where
  record : Record
  changed : Bool
  visible : Bool
  deriving DecidableEq, Repr

def Record.content (record : Record) : Content where
  attr := record.attr
  data := record.data

/-- `valid` of an attribute or data. -/
def fits (value : Bytes) : Bool := value.length ≤ 1024 * 1024

def Record.valid (record : Record) : Bool :=
  fits record.attr && fits record.data && 1000 ≤ record.ttl && record.ttl ≤ 600000
    && 0 ≤ record.deadline

def error : Clock.Error → Error
  | .clockUnready => .clock
  | .invalidTime => .input
  | .exhausted => .exhausted

def milliseconds (ttl : Nat) : Int := (ttl : Int) * 1000000

def create (attr data : Bytes) (ttl : Nat) (reading : Clock.Reading) : Except Error Record :=
  if !fits attr ∨ !fits data ∨ ttl < 1000 ∨ ttl > 600000 then
    .error .input
  else
    match reading.deadlineAfter (milliseconds ttl) with
    | .error refused => .error (error refused)
    | .ok deadline => .ok { attr, data, deadline, ttl }

def active (current : Record) (reading : Clock.Reading) : Except Error Unit :=
  if !current.valid ∨ reading.time < 0 then
    .error .input
  else if !reading.ready then
    .error .clock
  else if reading.time ≥ current.deadline then
    .error .ended
  else
    .ok ()

/-- Replace the data. The same order again is confirmed for the same data only. -/
def update (current : Record) (data : Bytes) (order : Nat) (reading : Clock.Reading)
    : Except Error Change :=
  if !fits data ∨ order = 0 then
    .error .input
  else
    match active current reading with
    | .error refused => .error refused
    | .ok () =>
        if order < current.update then
          .error .obsolete
        else if order = current.update then
          if data = current.data then
            .ok { record := current, changed := false, visible := false }
          else
            .error .conflict
        else
          .ok
            { record := { current with update := order, data }
              changed := true
              visible := decide (data ≠ current.data) }

def renew (current : Record) (order : Nat) (reading : Clock.Reading) : Except Error Change :=
  if order = 0 then
    .error .input
  else
    match active current reading with
    | .error refused => .error refused
    | .ok () =>
        if order < current.renewal then
          .error .obsolete
        else if order = current.renewal then
          .ok { record := current, changed := false, visible := false }
        else
          match reading.deadlineAfter (milliseconds current.ttl) with
          | .error refused => .error (error refused)
          | .ok deadline =>
              .ok
                { record :=
                    { current with renewal := order, deadline := max current.deadline deadline }
                  changed := true
                  visible := false }

-- What the rules say

variable {current record : Record} {reading : Clock.Reading} {change : Change}

theorem before_of_active (accepted : active current reading = .ok ())
    : reading.time < current.deadline ∧ current.valid = true := by
  unfold active at accepted
  split at accepted
  · cases accepted
  rename_i shape
  simp only [not_or, Bool.not_eq_true, Bool.not_eq_false'] at shape
  split at accepted
  · cases accepted
  split at accepted
  · cases accepted
  next within => exact ⟨Int.not_le.mp within, shape.1⟩

theorem deadlineAfter_ok {ttl deadline : Int} (accepted : reading.deadlineAfter ttl = .ok deadline)
    : deadline = reading.time + ttl ∧ 0 ≤ reading.time ∧ 0 ≤ ttl := by
  unfold Clock.Reading.deadlineAfter at accepted
  split at accepted
  · cases accepted
  split at accepted
  · cases accepted
  rename_i times
  split at accepted
  · cases accepted
  · cases accepted
    exact ⟨rfl, by omega, by omega⟩

variable {data : Bytes}

/-- A registration as it was asked for, whose lease begins now. -/
theorem create_ok {attr : Bytes} {ttl : Nat} (created : create attr data ttl reading = .ok record)
    : record.valid = true ∧ record.content = { attr, data } ∧ reading.time < record.deadline := by
  unfold create at created
  split at created
  · cases created
  rename_i shape
  split at created
  · cases created
  rename_i deadline isDeadline
  cases created
  obtain ⟨rfl, positive, _⟩ := deadlineAfter_ok isDeadline
  simp only [not_or, Bool.not_eq_true, Bool.not_eq_false', Nat.not_lt] at shape
  obtain ⟨attr, data, least, most⟩ := shape
  refine ⟨?_, rfl, ?_⟩
  · simp only [Record.valid, Bool.and_eq_true, decide_eq_true_eq]
    refine ⟨⟨⟨⟨attr, data⟩, least⟩, most⟩, ?_⟩
    unfold milliseconds
    omega
  · unfold milliseconds
    dsimp only
    omega

/-- What an accepted candidate keeps, and that the lease of the old record lasts. -/
structure Follows (current : Record) (reading : Clock.Reading) (change : Change) : Prop where
  before : reading.time < current.deadline
  valid : change.record.valid = true
  attr : change.record.attr = current.attr
  ttl : change.record.ttl = current.ttl
  deadline : current.deadline ≤ change.record.deadline
  orders : current.update ≤ change.record.update ∧ current.renewal ≤ change.record.renewal
  same : change.changed = false → change.record = current
  hidden : change.visible = false → change.record.data = current.data

variable {order : Nat}

theorem update_ok (accepted : update current data order reading = .ok change)
    : Follows current reading change ∧ change.record.data = data
      ∧ change.record.deadline = current.deadline := by
  unfold update at accepted
  split at accepted
  · cases accepted
  rename_i shape
  simp only [not_or, Bool.not_eq_true, Bool.not_eq_false'] at shape
  split at accepted
  · cases accepted
  rename_i lasting
  obtain ⟨before, valid⟩ := before_of_active lasting
  split at accepted
  · cases accepted
  rename_i onwards
  split at accepted
  · split at accepted
    next same =>
      cases accepted
      exact ⟨⟨before, valid, rfl, rfl, le_rfl, ⟨le_rfl, le_rfl⟩, fun _ => rfl, fun _ => rfl⟩,
        same.symm, rfl⟩
    · cases accepted
  · cases accepted
    refine ⟨⟨before, ?_, rfl, rfl, le_rfl, ⟨Nat.le_of_not_lt onwards, le_rfl⟩, nofun, ?_⟩, rfl,
      rfl⟩
    · simp only [Record.valid, Bool.and_eq_true, decide_eq_true_eq] at valid ⊢
      exact ⟨⟨⟨⟨valid.1.1.1.1, shape.1⟩, valid.1.1.2⟩, valid.1.2⟩, valid.2⟩
    · intro hidden
      simpa using hidden

theorem renew_ok (accepted : renew current order reading = .ok change)
    : Follows current reading change ∧ change.record.data = current.data
      ∧ change.record.update = current.update ∧ change.visible = false := by
  unfold renew at accepted
  split at accepted
  · cases accepted
  split at accepted
  · cases accepted
  rename_i lasting
  obtain ⟨before, valid⟩ := before_of_active lasting
  split at accepted
  · cases accepted
  rename_i onwards
  split at accepted
  · cases accepted
    exact ⟨⟨before, valid, rfl, rfl, le_rfl, ⟨le_rfl, le_rfl⟩, fun _ => rfl, fun _ => rfl⟩, rfl,
      rfl, rfl⟩
  · split at accepted
    · cases accepted
    · cases accepted
      refine ⟨⟨before, ?_, rfl, rfl, le_max_left _ _, ⟨le_rfl, Nat.le_of_not_lt onwards⟩, nofun,
        fun _ => rfl⟩, rfl, rfl, rfl⟩
      simp only [Record.valid, Bool.and_eq_true, decide_eq_true_eq] at valid ⊢
      exact ⟨valid.1, valid.2.trans (le_max_left _ _)⟩

end Astra.Ephemeris
