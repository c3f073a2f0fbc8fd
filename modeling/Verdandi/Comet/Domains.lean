import Verdandi.Comet.Composition
import Verdandi.Star.Edition

/-! The three domains: what their components let into a Scene or a book, that the encoders and
the views agree on it, and what a view makes of a single row.
-/

namespace Comet

open Astra Support Proto Paging

-- Almanac

structure Almanac.Admitted (row : Bytes × Option Bytes) : Prop where
  key : Scope.text row.1 1024 = true
  value : (row.2.getD []).length ≤ payload

theorem Almanac.agree : Agree Edition.format projection Wire.almanacChange Almanac.Admitted where
  measured := rfl
  key _ := rfl
  valid _ admitted := admitted.key
  light row admitted := by
    have key := (Scope.text_bounds admitted.key).2
    have value := admitted.value
    refine ⟨rfl, ?_⟩
    change row.1.length + (row.2.getD []).length + 32 ≤ light
    simp only [payload] at value
    simp only [light]
    omega
  wire := by
    rintro ⟨key, value⟩ admitted
    have short : key.length ≤ 1024 := (Scope.text_bounds admitted.key).2
    have bounded : (value.getD []).length ≤ payload := admitted.value
    simp only [payload] at bounded
    have name := Wire.bytes_le (show key.length < 2 ^ 28 by omega)
    change Wire.field (Wire.bytes key + Wire.action (value.elim .erase .value))
      ≤ key.length + (value.getD []).length + 32
    have action : Wire.action (value.elim .erase .value) ≤ (value.getD []).length + 5 := by
      cases value with
      | none => decide
      | some value => exact Wire.field_le (show value.length < 2 ^ 28 from by
          simp only [Option.getD_some] at bounded
          omega)
    have whole := Wire.field_le
      (show Wire.bytes key + Wire.action (value.elim .erase .value) < 2 ^ 28 by omega)
    omega

variable {mode : Mode}

/-- A view of the Almanac takes every admitted row. -/
theorem Almanac.install_encode {row : Bytes × Option Bytes} (admitted : Almanac.Admitted row)
    (erasing : row.2 = none → mode = .apply) (old : Option Bytes)
    : projection.install mode old (Edition.format.encode row) = .ok row.2 := by
  obtain ⟨key, value⟩ := row
  have bounded := admitted.value
  cases value with
  | none => simp [projection, Projection.install, Edition.format, Edition.encode, erasing rfl]
  | some value =>
      have fits : ¬ value.length > payload := Nat.not_lt.mpr bounded
      simp [projection, Projection.install, Edition.format, Edition.encode, fits]

-- Catalog

structure Catalog.Admitted (key : Bytes) (record : Option Catalog.Content) : Prop where
  key : Scope.text key 1024 = true
  version : ∀ held, record = some held → held.version ≠ 0 ∧ held.version ≤ maxWord
  value : ∀ held, record = some held → held.value.length ≤ payload

theorem Catalog.agree
    : Agree (Pagination.format Catalog.encoding) subscription Wire.catalogChange
        fun row => Catalog.Admitted row.1 row.2.record where
  measured := rfl
  key row := by
    change (Catalog.encode row.1 row.2).key = row.1
    unfold Catalog.encode
    split <;> rfl
  valid _ admitted := admitted.key
  light := by
    rintro ⟨key, record, data⟩ admitted
    have short : key.length ≤ 1024 := (Scope.text_bounds admitted.key).2
    constructor
    · have positive : record.any (·.version == 0) = false := by
        cases record with
        | none => rfl
        | some held => simpa using (admitted.version held rfl).1
      simp [Pagination.format, Catalog.encoding, admitted.key, positive]
    · change key.length + (record.elim 0 fun held => held.value.length) + 48 ≤ light
      have bounded : (record.elim 0 fun held => held.value.length) ≤ payload := by
        cases record with
        | none => exact Nat.zero_le _
        | some held => exact admitted.value held rfl
      simp only [payload] at bounded
      simp only [light]
      omega
  wire := by
    rintro ⟨key, record, data⟩ admitted
    have short : key.length ≤ 1024 := (Scope.text_bounds admitted.key).2
    have name := Wire.bytes_le (show key.length < 2 ^ 28 by omega)
    change Wire.field (Wire.catalogChange (Catalog.encode key { record, data }))
      ≤ key.length + (record.elim 0 fun held => held.value.length) + 48
    have inner : Wire.catalogChange (Catalog.encode key { record, data })
        ≤ key.length + (record.elim 0 fun held => held.value.length) + 21 := by
      cases record with
      | none =>
          have erased : Wire.action .erase = 2 := by decide
          simp only [Catalog.encode, Wire.catalogChange, erased, if_true, Option.elim_none]
          omega
      | some held =>
          have bounded := admitted.value held rfl
          have word := (admitted.version held rfl).2
          simp only [payload] at bounded
          have value := Wire.field_le (show held.value.length < 2 ^ 28 by omega)
          have version := Wire.varint_le
            (show held.version < 2 ^ (7 * 10) by simp only [maxWord] at word; omega)
            (by decide) (by decide)
          have encoded : Wire.catalogChange (Catalog.encode key { record := some held, data })
              = Wire.bytes key + Wire.field held.value.length
                + if held.version = 0 then 0 else 1 + Wire.varint held.version := rfl
          rw [encoded, if_neg (admitted.version held rfl).1]
          simp only [Option.elim_some]
          omega
    have bounded : (record.elim 0 fun held => held.value.length) ≤ payload := by
      cases record with
      | none => exact Nat.zero_le _
      | some held => exact admitted.value held rfl
    simp only [payload] at bounded
    have whole := Wire.field_le
      (show Wire.catalogChange (Catalog.encode key { record, data }) < 2 ^ 28 by omega)
    omega

/-- A view of a Catalog takes every admitted row. -/
theorem Catalog.install_encode {key : Bytes} {row : Row Catalog.Content}
    (admitted : Catalog.Admitted key row.record) (erasing : row.record = none → mode = .apply)
    (old : Option Catalog.Content)
    : subscription.install mode old ((Pagination.format Catalog.encoding).encode (key, row))
      = .ok row.record := by
  obtain ⟨record, data⟩ := row
  change Subscription.install mode old (Catalog.encode key { record, data }) = .ok record
  cases record with
  | none => simp [Subscription.install, Catalog.encode, erasing rfl]
  | some held =>
      have fits : ¬ held.value.length > payload := Nat.not_lt.mpr (admitted.value held rfl)
      simp [Subscription.install, Catalog.encode, fits, (admitted.version held rfl).1]

theorem Catalog.acting
    : Scene.Acting (fun event => Catalog.act event.row) Catalog.Admitted :=
  fun _ _ _ _ _ => rfl

-- Ephemeris

/-- What the Ephemeris checks of a registration, and that a UUID has one attribute. -/
structure Ephemeris.Admitted (attr : Bytes → Bytes) (uuid : Bytes)
    (record : Option Ephemeris.Content)
    : Prop where
  valid : Ephemeris.valid uuid = true
  fixed : ∀ held, record = some held → held.attr = attr uuid
  sizes : ∀ held, record = some held → held.attr.length ≤ payload ∧ held.data.length ≤ payload

variable {uuid : Bytes}

theorem Ephemeris.length_of_valid (valid : Ephemeris.valid uuid = true)
    : uuid.length = 16 := by
  simp only [Ephemeris.valid, Bool.and_eq_true, decide_eq_true_eq] at valid
  exact valid.1.1

theorem Ephemeris.agree (attr : Bytes → Bytes)
    : Agree (Pagination.format Ephemeris.encoding) selection Wire.ephemerisChange
        fun row => Ephemeris.Admitted attr row.1 row.2.record where
  measured := rfl
  key row := by
    change (Ephemeris.encode row.1 row.2).uuid = row.1
    unfold Ephemeris.encode
    split
    · rfl
    · split <;> rfl
  valid _ admitted := admitted.valid
  light := by
    rintro ⟨uuid, record, data⟩ admitted
    have length : uuid.length = 16 := Ephemeris.length_of_valid admitted.valid
    constructor
    · simp [Pagination.format, Ephemeris.encoding, admitted.valid]
    · change uuid.length + (record.elim 0 fun held =>
        held.data.length + if data then 0 else held.attr.length) + 48 ≤ light
      simp only [light]
      cases record with
      | none =>
          simp only [Option.elim_none]
          omega
      | some held =>
          have sizes := admitted.sizes held rfl
          simp only [payload] at sizes
          cases data <;> simp only [Option.elim_some, Bool.false_eq_true, if_true, if_false] <;>
            omega
  wire := by
    rintro ⟨uuid, record, data⟩ admitted
    have length : uuid.length = 16 := Ephemeris.length_of_valid admitted.valid
    have name := Wire.bytes_le (show uuid.length < 2 ^ 28 by omega)
    change Wire.field (Wire.ephemerisChange (Ephemeris.encode uuid { record, data }))
      ≤ uuid.length + (record.elim 0 fun held =>
          held.data.length + if data then 0 else held.attr.length) + 48
    cases record with
    | none =>
        have erased : Wire.registering .erase = 2 := by decide
        have whole := Wire.field_le (show Wire.bytes uuid + 2 < 2 ^ 28 by omega)
        simp only [Ephemeris.encode, Wire.ephemerisChange, erased, Option.elim_none]
        omega
    | some held =>
        have sizes := admitted.sizes held rfl
        simp only [payload] at sizes
        have value := Wire.field_le (show held.data.length < 2 ^ 28 by omega)
        have attr := Wire.bytes_le (show held.attr.length < 2 ^ 28 by omega)
        have body := Wire.bytes_le (show held.data.length < 2 ^ 28 by omega)
        cases data with
        | true =>
            have whole := Wire.field_le
              (show Wire.bytes uuid + Wire.field held.data.length < 2 ^ 28 by omega)
            simp only [Ephemeris.encode, Wire.ephemerisChange, Wire.registering, if_true,
              Option.elim_some]
            omega
        | false =>
            have record := Wire.field_le
              (show Wire.bytes held.attr + Wire.bytes held.data < 2 ^ 28 by omega)
            have whole := Wire.field_le
              (show Wire.bytes uuid + Wire.field (Wire.bytes held.attr + Wire.bytes held.data)
                < 2 ^ 28 by omega)
            simp only [Ephemeris.encode, Wire.ephemerisChange, Wire.registering,
              Bool.false_eq_true, if_false, Option.elim_some]
            omega

/-- A view of an Ephemeris takes an admitted row that acts on its record as announced: data
alone meets a record with the attribute.
-/
theorem Ephemeris.install_encode {attr : Bytes → Bytes} {row : Row Ephemeris.Content}
    (admitted : Ephemeris.Admitted attr uuid row.record)
    (erasing : row.record = none ∨ row.data = true → mode = .apply) {old : Option Ephemeris.Content}
    (known : mode = .apply → ∀ held, old = some held → held.attr = attr uuid)
    (acts : Ephemeris.act row old = row.record)
    : selection.install mode old ((Pagination.format Ephemeris.encoding).encode (uuid, row))
      = .ok row.record := by
  obtain ⟨record, data⟩ := row
  change Selection.install mode old (Ephemeris.encode uuid { record, data }) = .ok record
  cases record with
  | none => simp [Selection.install, Ephemeris.encode, erasing (.inl rfl)]
  | some held =>
      obtain ⟨attrFits, dataFits⟩ := admitted.sizes held rfl
      have fits : ¬ (held.attr.length > payload ∨ held.data.length > payload) :=
        not_or.mpr ⟨Nat.not_lt.mpr attrFits, Nat.not_lt.mpr dataFits⟩
      cases data with
      | true =>
          have apply := erasing (.inr rfl)
          simp only [Ephemeris.act, if_true, Option.map_eq_some_iff] at acts
          obtain ⟨installed, rfl, same⟩ := acts
          simp [Selection.install, Ephemeris.encode, apply, Nat.not_lt.mpr dataFits, same]
      | false =>
          have kept : ¬ (mode = .apply ∧ old.any (·.attr != held.attr) = true) := by
            rintro ⟨apply, different⟩
            cases old with
            | none => cases different
            | some installed =>
                have equal := known apply installed rfl
                rw [← admitted.fixed held rfl] at equal
                simp [equal] at different
          simp only [Selection.install, Ephemeris.encode, Bool.false_eq_true, if_false,
            if_neg fits, if_neg kept]

theorem Ephemeris.acting (attr : Bytes → Bytes)
    : Scene.Acting (fun event => Ephemeris.act event.row) (Ephemeris.Admitted attr) := by
  rintro ⟨key, record, version, data, bytes, stored⟩ old admitted known present
  cases record with
  | none => rfl
  | some held =>
      cases data with
      | false => rfl
      | true =>
          obtain ⟨installed, rfl⟩ := Option.isSome_iff_exists.mp (present rfl).2
          have equal : installed.attr = held.attr :=
            ((known installed rfl).fixed installed rfl).trans (admitted.fixed held rfl).symm
          simp only [Ephemeris.act, Scene.Event.row, if_true, Option.map_some]
          rw [equal]

end Comet
