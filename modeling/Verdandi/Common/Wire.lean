import Verdandi.Common.Proto

/-! The encoded sizes of the watch messages, after the Protobuf rules: a field number below 16
takes one byte, a length or an integer takes a varint, and a field with its default value is
left out unless its presence is tracked.
-/

namespace Astra.Wire

open Proto

/-- The bytes of a varint: seven bits each, in the closed form that Protobuf computes. -/
def varint (value : Nat) : Nat :=
  (value.log2 * 9 + 73) / 64

def field (length : Nat) : Nat :=
  1 + varint length + length

/-- A `bytes` or `string` field, which is left out if it is empty. -/
def bytes (value : Bytes) : Nat :=
  if value.isEmpty then 0 else field value.length

/-- The `value` or `erase` of a change; an erase is an empty message. -/
def action : Action → Nat
  | .unset => 0
  | .value value => field value.length
  | .erase => field 0

def almanacChange (change : AlmanacChange) : Nat :=
  bytes change.key + action change.action

def catalogChange (change : CatalogChange) : Nat :=
  bytes change.key + action change.action
    + if change.version = 0 then 0 else 1 + varint change.version

def registering : Registering → Nat
  | .unset => 0
  | .record attr data => field (bytes attr + bytes data)
  | .erase => field 0
  | .data value => field value.length

def ephemerisChange (change : EphemerisChange) : Nat :=
  bytes change.uuid + registering change.action

/-- `ByteSizeLong` of a page, given the size of a change. -/
def page {Change : Type} (size : Change → Nat) (reply : WatchReply Change) : Nat :=
  (if reply.mode = .unspecified then 0 else 2)
    + (reply.changes.map fun change => field (size change)).sum
    + (if reply.complete then 2 else 0)
    + reply.version.elim 0 (1 + varint ·)
    + bytes reply.instance

/-- Seven bits for each byte. -/
theorem varint_le {value count : Nat} (small : value < 2 ^ (7 * count)) (positive : 0 < count)
    (limited : count ≤ 10)
    : varint value ≤ count := by
  have log : value.log2 < 7 * count := by
    rcases Nat.eq_zero_or_pos value with zero | nonzero
    · rw [zero, Nat.log2_zero]
      omega
    · exact (Nat.log2_lt (by omega)).mpr small
  unfold varint
  omega

/-- Lengths below 256 MiB take at most four bytes. -/
theorem field_le {length : Nat} (small : length < 2 ^ 28) : field length ≤ length + 5 := by
  have := varint_le (show length < 2 ^ (7 * 4) from small) (by decide) (by decide)
  unfold field
  omega

theorem bytes_le {value : Bytes} (small : value.length < 2 ^ 28)
    : bytes value ≤ value.length + 5 := by
  unfold bytes
  split
  · omega
  · exact field_le small

/-- Beside its changes a page takes the serving instance and less than 64 bytes. -/
theorem page_le {Change : Type} {size : Change → Nat} {reply : WatchReply Change}
    (word : ∀ version, reply.version = some version → version ≤ maxWord)
    (serving : reply.instance.length ≤ 128)
    : page size reply ≤ reply.instance.length + 64
        + (reply.changes.map fun change => field (size change)).sum := by
  have named := bytes_le (show reply.instance.length < 2 ^ 28 by omega)
  have mode : (if reply.mode = .unspecified then 0 else 2) ≤ 2 := by split <;> omega
  have complete : (if reply.complete then 2 else 0) ≤ 2 := by split <;> omega
  have version : reply.version.elim 0 (1 + varint ·) ≤ 11 := by
    cases present : reply.version with
    | none => exact Nat.zero_le _
    | some value =>
        have bounded := word value present
        have short := varint_le (show value < 2 ^ (7 * 10) by simp only [maxWord] at bounded; omega)
          (by decide) (by decide)
        rw [Option.elim_some]
        omega
  unfold page
  omega

end Astra.Wire
