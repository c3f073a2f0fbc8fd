import Verdandi.Sdk.Catalog.Value

/-! Records of registrations as the client library checks them before it sends them. -/

namespace Sdk.Registration

open Support
open Support.Redis (Text)
open Sdk.Catalog (validString)

def maxSafeInteger : Nat := 2 ^ 53 - 1

def maxHashFieldExpireAtMilliseconds : Nat := 2 ^ 46 - 1

structure ZoneConfig where
  attrMaxFields : Nat
  dataMaxFields : Nat
  fieldNameMaxBytes : Nat
  attrValueMaxBytes : Nat
  dataValueMaxBytes : Nat
  recordMaxBytes : Nat

def protocolZoneConfig : ZoneConfig where
  attrMaxFields := 128
  dataMaxFields := 128
  fieldNameMaxBytes := 64
  attrValueMaxBytes := 16 * 1024
  dataValueMaxBytes := 16 * 1024
  recordMaxBytes := 64 * 1024

structure Content where
  version : Nat
  attr : Assoc Text Text
  data : Assoc Text Text

def validateApplicationField (name value : Text) (nameLimit valueLimit : Nat) : Option Failure :=
  if name.length = 0 ∨ nameLimit < name.length ∨ validString name = false ∨ name.head? = some 38
      ∨ name.head? = some 64 ∨ name.head? = some 46 then
    some { code := .invalid, field := name }
  else if valueLimit < value.length then
    some { code := .capacity, field := name }
  else
    none

/-- The first failure of a field. The order of the fields is that of the map. -/
def validateEach (fields : Assoc Text Text) (nameLimit valueLimit : Nat) : Option Failure :=
  fields.toPairs.findSome? fun field =>
    validateApplicationField field.1 field.2 nameLimit valueLimit

def validateFields (attr data : Assoc Text Text) (limits : ZoneConfig) : Option Failure :=
  if limits.attrMaxFields < attr.size then
    some { code := .capacity, field := ascii "attr" }
  else if limits.dataMaxFields < data.size then
    some { code := .capacity, field := ascii "data" }
  else
    match validateEach attr limits.fieldNameMaxBytes limits.attrValueMaxBytes with
    | some failure => some failure
    | none => validateEach data limits.fieldNameMaxBytes limits.dataValueMaxBytes

def decimalDigits (value : Nat) : Nat := (Decimal.text value).length

/-- What a record takes at most; the time of the server is not known yet. -/
def registrationSize (uuid : Text) (revision ttl : Nat) (content : Content) : Nat :=
  (ascii "@uuid").length + uuid.length + (ascii "@revision").length + decimalDigits revision
    + (ascii "@timestamp").length + 16 + (ascii "@ttl").length + decimalDigits ttl
    + (ascii "@version").length + decimalDigits content.version
    + content.attr.weight (fun name value => 1 + name.length + value.length)
    + content.data.weight (fun name value => name.length + value.length)

def validateRecord (uuid : Text) (revision ttl : Nat) (content : Content) (limits : ZoneConfig)
    : Option Failure :=
  if revision = 0 ∨ maxSafeInteger < revision then
    some { code := .invalid, field := ascii "@revision" }
  else if ttl = 0 ∨ maxHashFieldExpireAtMilliseconds < ttl then
    some { code := .invalid, field := ascii "@ttl" }
  else if content.version = 0 ∨ maxSafeInteger < content.version then
    some { code := .invalid, field := ascii "@version" }
  else
    match validateFields content.attr content.data limits with
    | some failure => some failure
    | none =>
        if limits.recordMaxBytes < registrationSize uuid revision ttl content then
          some { code := .capacity, field := ascii "registration" }
        else
          none

def sortedFieldNames (values : Assoc Text Text) : List Text := values.keys.insertionSort (· ≤ ·)

/-- The fields in the order of their names, each name behind a prefix. -/
def sortedFields (mark : Text) (values : Assoc Text Text) : List (Text × Text) :=
  (sortedFieldNames values).map fun name => (mark ++ name, (values.get? name).getD [])

-- What is valid

variable {values : Assoc Text Text} {name : Text}

theorem mem_sortedFieldNames
    : name ∈ sortedFieldNames values ↔ (values.get? name).isSome := by
  rw [sortedFieldNames, List.mem_insertionSort, Assoc.mem_keys, Option.isSome_iff_exists]

variable {mark : Text}

theorem nodup_sortedFields
    : ((sortedFields mark values).map Prod.fst).Nodup := by
  rw [sortedFields, List.map_map]
  refine List.Nodup.map ?_ ?_
  · intro left right same
    exact List.append_cancel_left same
  · rw [sortedFieldNames, (List.perm_insertionSort _ _).nodup_iff]
    exact Assoc.nodup_keys _

theorem mem_sortedFields {field : Text × Text}
    : field ∈ sortedFields mark values
      ↔ ∃ name, field.1 = mark ++ name ∧ values.get? name = some field.2 := by
  rw [sortedFields, List.mem_map]
  constructor
  · rintro ⟨name, listed, rfl⟩
    obtain ⟨value, found⟩ := Option.isSome_iff_exists.mp (mem_sortedFieldNames.mp listed)
    exact ⟨name, rfl, by rw [found]; rfl⟩
  · rintro ⟨name, isName, found⟩
    refine ⟨name, mem_sortedFieldNames.mpr (by rw [found]; rfl), ?_⟩
    rw [found, ← isName]
    rfl

def Plain (name : Text) : Prop := name ≠ [] ∧ name.head? ≠ some 64 ∧ name.head? ≠ some 46

def AllPlain (fields : Assoc Text Text) : Prop :=
  ∀ name, (fields.get? name).isSome → Plain name

variable {nameLimit valueLimit : Nat}

theorem validateApplicationField_plain {value : Text}
    (valid : validateApplicationField name value nameLimit valueLimit = none)
    : Plain name := by
  rw [validateApplicationField] at valid
  split at valid
  · cases valid
  rename_i good
  simp only [not_or] at good
  obtain ⟨some, _, _, _, marked, dotted⟩ := good
  exact ⟨fun none => some (by rw [none]; rfl), marked, dotted⟩

theorem validateEach_plain {fields : Assoc Text Text}
    (valid : validateEach fields nameLimit valueLimit = none)
    : AllPlain fields := by
  intro name found
  obtain ⟨value, isValue⟩ := Option.isSome_iff_exists.mp found
  have listed := (Assoc.mem_toPairs fields name value).mpr isValue
  exact validateApplicationField_plain (List.findSome?_eq_none_iff.mp valid _ listed)

variable {limits : ZoneConfig}

theorem validateFields_plain {attr data : Assoc Text Text}
    (valid : validateFields attr data limits = none)
    : AllPlain attr ∧ AllPlain data := by
  rw [validateFields] at valid
  split at valid
  · cases valid
  split at valid
  · cases valid
  split at valid
  · cases valid
  next accepted => exact ⟨validateEach_plain accepted, validateEach_plain valid⟩

structure Admitted (revision ttl : Nat) (content : Content) : Prop where
  revision : 1 ≤ revision ∧ revision ≤ maxSafeInteger
  ttl : 1 ≤ ttl ∧ ttl ≤ maxHashFieldExpireAtMilliseconds
  version : 1 ≤ content.version ∧ content.version ≤ maxSafeInteger
  attr : AllPlain content.attr
  data : AllPlain content.data

theorem validateRecord_admitted {uuid : Text} {revision ttl : Nat} {content : Content}
    (valid : validateRecord uuid revision ttl content limits = none)
    : Admitted revision ttl content := by
  rw [validateRecord] at valid
  split at valid
  · cases valid
  rename_i isRevision
  split at valid
  · cases valid
  rename_i isTtl
  split at valid
  · cases valid
  rename_i isVersion
  split at valid
  · cases valid
  rename_i fields
  obtain ⟨attr, data⟩ := validateFields_plain fields
  exact ⟨by omega, by omega, by omega, attr, data⟩

end Sdk.Registration
