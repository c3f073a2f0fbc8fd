import Verdandi.Common.Clock

/-! The records of a Catalog and the rules that make candidates of them: a local publish or
renewal, the end of a lease, and the merge of a fact from some source.
-/

namespace Astra.Catalog

inductive Error where
  | input
  | clock
  | ended
  | version
  | conflict
  | exhausted
  deriving DecidableEq, Repr

/-- A fact of some source, or the merged watermark of a key. Without a value there is no
deadline: the version alone is remembered.
-/
@[ext]
structure Record where
  version : Nat
  value : Option Bytes
  deadline : Option Int
  deriving DecidableEq, Repr

structure Content where
  version : Nat
  value : Bytes
  deriving DecidableEq, Repr

structure Change where
  record : Record
  visible : Bool
  deriving DecidableEq, Repr

def Record.valid (record : Record) : Bool :=
  record.version != 0 && record.value.isSome == record.deadline.isSome
    && record.value.all (·.length ≤ 1024 * 1024)
    && record.deadline.all (0 ≤ ·)

/-- `valid` of two records that may be missing. -/
def valid (source merged : Option Record) : Bool :=
  source.all Record.valid && merged.all Record.valid

def error : Clock.Error → Error
  | .clockUnready => .clock
  | .invalidTime => .input
  | .exhausted => .exhausted

def ready (reading : Clock.Reading) : Except Error Unit :=
  if reading.time < 0 then
    .error .input
  else if !reading.ready then
    .error .clock
  else
    .ok ()

/-- A version may not fall behind a known record, and equal versions have equal values. -/
def check (current : Option Record) (version : Nat) (value : Bytes) : Except Error Unit :=
  match current with
  | none => .ok ()
  | some record =>
      if version < record.version then
        .error .version
      else if version = record.version ∧ record.value.any (· != value) then
        .error .conflict
      else
        .ok ()

def milliseconds (ttl : Nat) : Int := (ttl : Int) * 1000000

/-- A whole record of the local source. A missing value is refused before, so there is one. -/
def publish (source merged : Option Record) (value : Bytes) (version ttl : Nat)
    (reading : Clock.Reading)
    : Except Error Record :=
  if !valid source merged ∨ value.length > 1024 * 1024 ∨ version = 0 ∨ ttl < 1000
      ∨ ttl > 600000 then
    .error .input
  else
    match check source version value, check merged version value with
    | .error refused, _ => .error refused
    | _, .error refused => .error refused
    | .ok (), .ok () =>
        match reading.deadlineAfter (milliseconds ttl) with
        | .error refused => .error (error refused)
        | .ok deadline =>
            -- Equal versions have equal values here, so only the deadline of the source counts.
            match source.filter fun known => known.version = version ∧ known.value.isSome with
            | some known =>
                .ok
                  { version
                    value := known.value
                    deadline := some (max (known.deadline.getD deadline) deadline) }
            | none => .ok { version, value := some value, deadline := some deadline }

/-- A longer lease for a record of the local source that has not ended. -/
def renew (source merged : Option Record) (version ttl : Nat) (reading : Clock.Reading)
    : Except Error Record :=
  if !valid source merged ∨ version = 0 ∨ ttl < 1000 ∨ ttl > 600000 then
    .error .input
  else
    match ready reading with
    | .error refused => .error refused
    | .ok () =>
        if merged.any (·.version > version) ∨ source.any (·.version != version) then
          .error .version
        else
          match source with
          | none => .error .ended
          | some record =>
              if record.value.isNone ∨ record.deadline.any (· ≤ reading.time) then
                .error .ended
              else
                match reading.deadlineAfter (milliseconds ttl) with
                | .error refused => .error (error refused)
                | .ok deadline =>
                    .ok { record with deadline := record.deadline.map (max · deadline) }

def Record.expire (record : Record) (now : Int) : Record :=
  if record.deadline.any (· ≤ now) then
    { version := record.version, value := none, deadline := none }
  else
    record

/-- Whether subscribers see a difference: deadlines are not part of the content. -/
def visible (current : Option Record) (candidate : Record) : Bool :=
  match current.bind Record.value, candidate.value with
  | none, value => value.isSome
  | some _, none => true
  | some shown, some value =>
      current.any (·.version != candidate.version) || shown != value

/-- Merge a fact. A newer version always counts, even without a value; of equal versions the
one that lasts longest does.
-/
def Record.merge (current : Option Record) (incoming : Record) (now : Int)
    : Except Error Change :=
  if !Catalog.valid current (some incoming) ∨ now < 0 then
    .error .input
  else
    match current with
    | none =>
        let record := incoming.expire now
        .ok { record, visible := visible none record }
    | some known =>
        if known.version = incoming.version ∧ known.value.isSome ∧ incoming.value.isSome
            ∧ known.value ≠ incoming.value then
          .error .conflict
        else
          let kept := known.expire now
          let fact := incoming.expire now
          let record :=
            if incoming.version > known.version then
              fact
            else if incoming.version = known.version ∧ fact.value.isSome then
              if kept.value.isNone then
                fact
              else
                { kept with
                  deadline := kept.deadline.bind fun held => fact.deadline.map (max held) }
            else
              kept
          .ok { record, visible := visible (some known) record }

end Astra.Catalog
