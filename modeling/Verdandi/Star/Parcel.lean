import Verdandi.Star.Agenda
import Verdandi.Star.Catalog.Record
import Verdandi.Star.Ephemeris.Record

/-! Facts as they are sent between Stars. A message may come from anybody, so it is decoded only if it is
well formed; what is encoded comes from the own state.
-/

namespace Astra

namespace Parcel

def time (value : Nat) : Option Int :=
  if value ≠ 0 ∧ (value : Int) ≤ Clock.maximum then some value else none

def scope (message : Scope) : Option Scope := if message.valid then some message else none

-- Records

inductive CatalogBody where
  | value (value : Bytes) (deadline : Nat)
  | watermark
  deriving DecidableEq, Repr

structure CatalogRecord where
  version : Nat := 0
  body : Option CatalogBody := none
  deriving DecidableEq, Repr

structure EphemerisRecord where
  attr : Bytes := []
  data : Bytes := []
  deadline : Nat := 0
  update : Nat := 0
  renewal : Nat := 0
  ttlMs : Nat := 0
  deriving DecidableEq, Repr

namespace CatalogRecord

def valid (message : CatalogRecord) : Bool :=
  message.version != 0 && match message.body with
      | some .watermark => true
      | some (.value value deadline) => value.length ≤ 1024 * 1024 && (time deadline).isSome
      | none => false

/-- `record`, from a native record. -/
def encode (value : Catalog.Record) : Except Fault CatalogRecord :=
  if !value.valid then
    .error (.logicError "Invalid native Catalog record")
  else
    .ok {
      version := value.version
      body := some (match value.value with
        | some body => .value body (value.deadline.getD 0).toNat
        | none => .watermark) }

/-- `record`, to a native record. -/
def decode (message : CatalogRecord) : Option Catalog.Record :=
  if !message.valid then
    none
  else
    match message.body with
    | some (.value value deadline) =>
        some { version := message.version, value := some value, deadline := time deadline }
    | _ => some { version := message.version, value := none, deadline := none }

end CatalogRecord

namespace EphemerisRecord

def valid (message : EphemerisRecord) : Bool :=
  message.attr.length ≤ 1024 * 1024 && message.data.length ≤ 1024 * 1024
    && 1000 ≤ message.ttlMs && message.ttlMs ≤ 600000 && (time message.deadline).isSome

def encode (value : Ephemeris.Record) : Except Fault EphemerisRecord :=
  if value.attr.length > 1024 * 1024 ∨ value.data.length > 1024 * 1024 ∨ value.ttl < 1000
      ∨ value.ttl > 600000 ∨ value.deadline ≤ 0 then
    .error (.logicError "Invalid native Ephemeris record")
  else
    .ok {
      attr := value.attr
      data := value.data
      deadline := value.deadline.toNat
      update := value.update
      renewal := value.renewal
      ttlMs := value.ttl }

def decode (message : EphemerisRecord) : Option Ephemeris.Record :=
  if !message.valid then
    none
  else
    (time message.deadline).map fun deadline => {
      attr := message.attr
      data := message.data
      deadline
      update := message.update
      renewal := message.renewal
      ttl := message.ttlMs }

end EphemerisRecord

end Parcel

end Astra
